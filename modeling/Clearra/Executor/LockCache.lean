import Clearra.Executor.Catalog

/-!
# The lock-reachability workspace

The engine the buildability stages ask whether a lock is reachable. A query is answered, in this
order, by a hard-drop test on masks, by a bounded cache of earlier answers, or by a search — the
reverse search of one lock, or, for a board asked about often enough, the forward search of all of
them. The cache is four-way associative; what it evicts and what it declines to admit cost a search
and nothing else.

The source splits a slot over three vectors so that a miss touches only the keys; here a slot is
one record. Metrics and the optional conditioned source are not modelled: without the latter
`lock_reachable_cached` is the cache lookup followed by the search.
-/

namespace Clearra.Executor

open Rules

/-! ## Hashing -/

/-- `mix_digest`: FNV over the eight bytes of the value. -/
def mixDigest (hash value : BitVec 64) : BitVec 64 :=
  (List.range 8).foldl
    (fun hash byte => (hash ^^^ ((value >>> (8 * byte)) &&& 0xff)) * 0x00000100000001b3)
    (if hash = 0 then 0xcbf29ce484222325 else hash)

def reachabilityCacheHash (board : Board) (pieceCode : Nat) : BitVec 64 :=
  mixDigest board (BitVec.ofNat 64 pieceCode)

def reachabilityCacheCapacity : Nat := 2 ^ 16

def reachabilityCacheWays : Nat := 4

def reachabilityCacheSetStart (hash : BitVec 64) (capacity : Nat) : Nat :=
  (hash.toNat &&& (capacity / reachabilityCacheWays - 1)) * reachabilityCacheWays

/-! ## The cache -/

namespace ReachableLocks

def insert (locks : ReachableLocks) (width : Nat) (rotation : RotationState) (x y : Int) :
    ReachableLocks :=
  if x < 0 ∨ y < 0 ∨ x ≥ width then locks
  else
    let anchor := y.toNat * width + x.toNat
    if anchor < 64 then locks.mark rotation anchor else locks

def unionWith (locks other : ReachableLocks) : ReachableLocks :=
  ⟨fun rotation => locks.anchors rotation ||| other.anchors rotation⟩

end ReachableLocks

/-- A key and what is known under it: locks proven reachable, locks proven unreachable, and
    whether the first list is all of them. -/
structure CacheSlot where
  valid : Bool
  board : Board
  pieceCode : Nat
  observation : Nat
  exhaustive : Bool
  locks : ReachableLocks
  unreachableLocks : ReachableLocks

namespace CacheSlot

/-- `ReachabilityCacheKey::default()` and empty locks. -/
def vacant : CacheSlot := ⟨false, 0, 0, 0, false, .empty, .empty⟩

def holds (slot : CacheSlot) (board : Board) (pieceCode : Nat) : Bool :=
  slot.valid && slot.board = board && slot.pieceCode = pieceCode

end CacheSlot

structure ReachabilityObservation where
  tag : Nat
  count : Nat
  valid : Bool
  deriving DecidableEq, Inhabited

inductive ReachabilityCacheLookup where
  | reachable
  | exhaustivelyUnreachable
  | search (exhaustive admitted : Bool)
  deriving DecidableEq

structure ReachabilityCache where
  slots : List CacheSlot
  observations : List ReachabilityObservation
  exhaustiveObservations : Nat
  allocationDisabled : Bool

/-- `saturating_add(1)` on `u8`. -/
def saturatingSucc (n : Nat) : Nat := min (n + 1) 255

namespace ReachabilityCache

def empty : ReachabilityCache := ⟨[], [], 0, false⟩

/-- `initialize`; `storage` is whether the allocator has the room. The flag is its result. -/
def initializeStorage (cache : ReachabilityCache) (storage : Bool) : Bool × ReachabilityCache :=
  if cache.allocationDisabled then (false, cache)
  else if storage = false then
    (false, { cache with slots := [], observations := [], allocationDisabled := true })
  else
    (true,
      { cache with
        slots := List.replicate reachabilityCacheCapacity .vacant
        observations := List.replicate reachabilityCacheCapacity ⟨0, 0, false⟩
        exhaustiveObservations :=
          if cache.exhaustiveObservations = 0 then 32 else cache.exhaustiveObservations })

/-- `keys.is_empty() && !initialize()`: whether there is a cache to use, and it. -/
def ensure (cache : ReachabilityCache) (storage : Bool) : Bool × ReachabilityCache :=
  if cache.slots = [] then cache.initializeStorage storage else (true, cache)

/-- The number of earlier observations under this hash's tag. -/
def observe (cache : ReachabilityCache) (hash : BitVec 64) : Nat × ReachabilityCache :=
  let index := hash.toNat &&& (cache.observations.length - 1)
  let tag := (hash >>> 48).toNat
  let observation := cache.observations.getD index default
  if observation.valid = false ∨ observation.tag ≠ tag then
    (0, { cache with observations := cache.observations.set index ⟨tag, 1, true⟩ })
  else
    (observation.count,
      { cache with
        observations := cache.observations.set index
          { observation with count := saturatingSucc observation.count } })

/-- The indices of the set a key belongs to. -/
def ways (cache : ReachabilityCache) (board : Board) (pieceCode : Nat) : List Nat :=
  List.range' (reachabilityCacheSetStart (reachabilityCacheHash board pieceCode)
    cache.slots.length) reachabilityCacheWays

def slot (cache : ReachabilityCache) (index : Nat) : CacheSlot := cache.slots.getD index .vacant

def setSlot (cache : ReachabilityCache) (index : Nat) (slot : CacheSlot) : ReachabilityCache :=
  { cache with slots := cache.slots.set index slot }

def query (cache : ReachabilityCache) (storage : Bool) (board : Board) (piece : PieceKind)
    (width : Nat) (rotation : RotationState) (x y : Int) :
    ReachabilityCacheLookup × ReachabilityCache :=
  match cache.ensure storage with
  | (false, cache) => (.search false false, cache)
  | (true, cache) =>
    let pieceCode := piece.index + 1
    match (cache.ways board pieceCode).find? fun index =>
        (cache.slot index).holds board pieceCode with
    | some index =>
      let slot := cache.slot index
      if slot.locks.contains width rotation x y then (.reachable, cache)
      else if slot.unreachableLocks.contains width rotation x y then
        (.exhaustivelyUnreachable, cache)
      else if slot.exhaustive then (.exhaustivelyUnreachable, cache)
      else
        (.search (cache.exhaustiveObservations ≤ slot.observation) true,
          cache.setSlot index { slot with observation := saturatingSucc slot.observation })
    | none =>
      let (prior, cache) := cache.observe (reachabilityCacheHash board pieceCode)
      (.search false (0 < prior), cache)

/-- Where an insertion goes: a slot that holds the key, or a victim and its observation. -/
inductive Placement where
  | present (index : Nat)
  | victim (index observation : Nat)

/-- The scan of the set: stop at the key or at a vacant slot, else the least observed. -/
def place (cache : ReachabilityCache) (board : Board) (pieceCode : Nat) :
    List Nat → Nat → Nat → Placement
  | [], victim, observation => .victim victim observation
  | index :: rest, victim, observation =>
    if (cache.slot index).holds board pieceCode then .present index
    else if (cache.slot index).valid = false then .victim index 0
    else if (cache.slot index).observation < observation then
      place cache board pieceCode rest index (cache.slot index).observation
    else place cache board pieceCode rest victim observation

def insert (cache : ReachabilityCache) (storage : Bool) (board : Board) (piece : PieceKind)
    (locks unreachableLocks : ReachableLocks) (exhaustive admitted : Bool) : ReachabilityCache :=
  if exhaustive = false ∧ admitted = false then cache
  else
    match cache.ensure storage with
    | (false, cache) => cache
    | (true, cache) =>
      let pieceCode := piece.index + 1
      let setStart := reachabilityCacheSetStart (reachabilityCacheHash board pieceCode)
        cache.slots.length
      match cache.place board pieceCode (cache.ways board pieceCode) setStart 255 with
      | .present index =>
        let slot := cache.slot index
        cache.setSlot index
          { slot with
            locks := slot.locks.unionWith locks
            unreachableLocks := slot.unreachableLocks.unionWith unreachableLocks
            exhaustive := slot.exhaustive || exhaustive
            observation := max slot.observation 1 }
      | .victim index observation =>
        if exhaustive = false ∧ observation > 1 then cache
        else cache.setSlot index ⟨true, board, pieceCode, 1, exhaustive, locks, unreachableLocks⟩

/-- `configure`: larger searches go exhaustive sooner. -/
def configure (cache : ReachabilityCache) (operationCount : Nat) : ReachabilityCache :=
  { cache with exhaustiveObservations := if operationCount ≥ 7 then 16 else 32 }

end ReachabilityCache

/-! ## The workspace -/

/-- The engine between queries. A template is a function of the dimensions and the profile, both
    held here, so it is recompiled where the source reads it back. -/
structure ReachabilityWorkspace where
  cache : ReachabilityCache
  scratch : ReachabilityScratch
  templateDimensions : Option (Nat × Nat)
  kickProfileId : KickTableProfileId

namespace ReachabilityWorkspace

/-- `Default`. -/
def initial : ReachabilityWorkspace := ⟨.empty, .empty, none, .srsPlus⟩

/-- `clear_cache_preserving_policy`. -/
def clearCachePreservingPolicy (ws : ReachabilityWorkspace) : ReachabilityWorkspace :=
  { ws with
    cache := { ReachabilityCache.empty with
      exhaustiveObservations := ws.cache.exhaustiveObservations } }

def configure (ws : ReachabilityWorkspace) (operationCount : Nat) : ReachabilityWorkspace :=
  { ws with cache := ws.cache.configure operationCount }

def configureKickProfile (ws : ReachabilityWorkspace) (profileId : KickTableProfileId) :
    ReachabilityWorkspace :=
  if ws.kickProfileId ≠ profileId then
    { ws with kickProfileId := profileId, templateDimensions := none }.clearCachePreservingPolicy
  else ws

/-- `prepare_template`: cached locks are of the dimensions the templates are of. -/
def prepareTemplate (ws : ReachabilityWorkspace) (width height : Nat) : ReachabilityWorkspace :=
  if ws.templateDimensions ≠ some (width, height) then
    { ws.clearCachePreservingPolicy with templateDimensions := some (width, height) }
  else ws

/-- `u64 << u32` without overflow checks: the distance is taken modulo 64. -/
def wrappingShl (board : Board) (distance : Nat) : Board := board <<< (distance % 64)

/-- The lock's cells and the cells over them, up to seven rows. -/
def harddropPathMask (lockMask : Board) (width : Nat) : Board :=
  let path := lockMask
  let path := path ||| wrappingShl path width
  let path := path ||| wrappingShl path (width * 2)
  if width * 4 < 64 then path ||| wrappingShl path (width * 4) else path

/-- `lock_harddrop_reachable_instantiated`. -/
def lockHarddropReachable (width : Nat) (board : Board) (realization : InstantiatedRealization) :
    Bool :=
  (realization.lockY = 0 || (board &&& (realization.lockMask >>> (width % 64))) ≠ 0) &&
    (board &&& harddropPathMask realization.lockMask width) = 0

/-- The search a cache miss leads to: the answer, what it has proven reachable and unreachable,
    whether that is everything, and the scratch. -/
def searchLock (template : ReachabilityTemplate) (board : Board) (width : Nat)
    (rotation : RotationState) (x y : Int) (exhaustive : Bool) (scratch : ReachabilityScratch) :
    Option (Bool × ReachableLocks × ReachableLocks × Bool × ReachabilityScratch) :=
  let desired := ReachableLocks.empty.insert width rotation x y
  if exhaustive then do
    let (result, scratch) ← searchReachableLocks template board scratch none
    some (result.locks.contains width rotation x y, result.locks, .empty, result.exhaustive, scratch)
  else do
    let (result, scratch) ← reverseLockReachable template board rotation x y scratch
    some (result.reachable, if result.reachable then desired else .empty,
      if result.reachable then .empty else desired, false, scratch)

/-- `lock_reachable_cached` with no conditioned source. -/
def lockReachableCached (ws : ReachabilityWorkspace) (storage : Bool) (width height : Nat)
    (board : Board) (piece : PieceKind) (rotation : RotationState) (x y : Int) :
    Option (Bool × ReachabilityWorkspace) :=
  match ws.cache.query storage board piece width rotation x y with
  | (.reachable, cache) => some (true, { ws with cache })
  | (.exhaustivelyUnreachable, cache) => some (false, { ws with cache })
  | (.search exhaustive admitted, cache) => do
    let template ← ReachabilityTemplate.compile width height piece ws.kickProfileId
    let (reachable, locks, unreachableLocks, allLocks, scratch) ←
      searchLock template board width rotation x y exhaustive ws.scratch
    some (reachable,
      { ws with
        cache := cache.insert storage board piece locks unreachableLocks allLocks admitted
        scratch })

/-- `lock_reachable_instantiated_in_frame`. -/
def lockReachableInstantiated (ws : ReachabilityWorkspace) (storage : Bool) (width height : Nat)
    (board : Board) (piece : PieceKind) (realization : InstantiatedRealization) :
    Option (Bool × ReachabilityWorkspace) :=
  if lockHarddropReachable width board realization then some (true, ws)
  else (ws.prepareTemplate width height).lockReachableCached storage width height board piece
    realization.rotation realization.x realization.lockY

end ReachabilityWorkspace
end Clearra.Executor
