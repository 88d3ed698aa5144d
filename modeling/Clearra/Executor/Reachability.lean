import Clearra.Domain.Tetromino
import Clearra.Rules.Kicks
import Clearra.Lib.Csr

/-!
# Lock reachability (`wasm_cpu/reachability.rs`)

Poses of one piece on one board size are numbered, and everything about them that does not depend
on the board contents is compiled into flat tables once per piece (`ReachabilityTemplate.compile`).
`searchReachableLocks` floods forward from the sky and records every grounded pose,
`reverseLockReachable` walks backward from one grounded pose until it meets the sky.

The tables are kept as the source lays them out, sentinels included: `invalidStateMask` for a pose
that sticks out of the board, `invalidStateIndex` for a move that leads nowhere. So is the visited
bookkeeping: a mark is the number of the search that set it, the marks outlive the search, and a
search number wraps after 65535.

Coordinates are `i8` in the source. Boards have at most 64 cells and kicks reach a few rows, so no
sum leaves that range; they are `Int` here.
-/

namespace Clearra.Executor

open Rules Lib

abbrev Board := BitVec 64

/-- `1_u64 << index`. -/
def bit (index : Nat) : Board := 1#64 <<< index

def invalidStateMask : Board := BitVec.allOnes 64

def invalidStateIndex : Nat := 65535

/-- `u16::try_from(n).ok()`. -/
def u16TryFrom (n : Nat) : Option Nat := if n ≤ 65535 then some n else none

/-- `u8::try_from(n).ok()`. -/
def u8TryFrom (n : Nat) : Option Nat := if n ≤ 255 then some n else none

/-! ## Numbered poses -/

structure State where
  rotation : RotationState
  x : Int
  y : Int
  deriving DecidableEq

def stateIndex (width ceiling : Nat) (state : State) : Option Nat :=
  if state.x < 0 ∨ state.y < 0 ∨ state.x ≥ width ∨ state.y > ceiling then none
  else
    some ((state.rotation.quarterTurns * (ceiling + 1) + state.y.toNat) * width + state.x.toNat)

/-- The source panics on an index outside the table; no index reaches it that is. -/
def stateFromIndex (width ceiling index : Nat) : State :=
  let rotationStride := (ceiling + 1) * width
  let remainder := index % rotationStride
  { rotation := (RotationState.fromQuarterTurns (index / rotationStride)).getD .zero
    x := ((remainder % width : Nat) : Int)
    y := ((remainder / width : Nat) : Int) }

/-! ## Kicks relative to the anchor -/

/-- Where the rotation centre lies relative to the anchor. -/
def normalizedRotationCenter : PieceKind → RotationState → Int × Int
  | .I, .zero => (0, 0)
  | .I, .right => (-2, 2)
  | .I, .two => (0, 1)
  | .I, .left => (-1, 2)
  | .O, _ => (0, 0)
  | _, .zero => (1, 0)
  | _, .right => (0, 1)
  | _, .two => (1, 1)
  | _, .left => (1, 1)

def normalizedKickDelta (piece : PieceKind) (src dst : RotationState) (kick : KickOffset) :
    Int × Int :=
  (kick.dx + (normalizedRotationCenter piece src).1 - (normalizedRotationCenter piece dst).1,
   kick.dy + (normalizedRotationCenter piece src).2 - (normalizedRotationCenter piece dst).2)

/-- How far the lowest kick of the piece reaches down. -/
def maximumDownward (piece : PieceKind) (allow180 : Bool) (profile : KickTableProfile) : Nat :=
  (((((profile.entries.filter fun entry => entry.transition.piece = piece).filter
    fun entry => allow180 || !entry.transition.is180).flatMap
    fun entry => entry.offsets.map fun offset =>
      (normalizedKickDelta piece entry.transition.src entry.transition.dst offset).2).filter
    (· < 0)).map fun dy => (-dy).toNat).max?.getD 0

def sourceCeiling (height : Nat) (piece : PieceKind) (allow180 : Bool)
    (profile : KickTableProfile) : Nat :=
  height + maximumDownward piece allow180 profile

/-- The three rotations out of `r`, in slot order. -/
def rotationsFrom (r : RotationState) : List RotationState :=
  [r.clockwise, r.counterClockwise, r.rotated180]

def rotationTransitionIndex (src : RotationState) (slot : Nat) : Nat := src.quarterTurns * 3 + slot

/-- The twelve kick lists, at `rotationTransitionIndex`; slot 2 stays empty without half turns. -/
def kickDeltas (piece : PieceKind) (allow180 : Bool) (profile : KickTableProfile) :
    List (List (Int × Int)) :=
  RotationState.all.flatMap fun src =>
    (rotationsFrom src).zipIdx.map fun (dst, slot) =>
      if slot = 2 ∧ allow180 = false then []
      else
        match profile.sequenceFor ⟨piece, src, dst⟩ with
        | some offsets => offsets.map (normalizedKickDelta piece src dst)
        | none => []

/-! ## Compiled tables -/

/-- One pose's cells as board bits; cells above the board leave no bit, and a cell beside or below
    it makes the pose invalid. -/
def poseMask (width height : Nat) (piece : PieceKind) (state : State) : Option Board :=
  (shapeCells piece state.rotation).foldlM
    (fun mask cell =>
      let cellX := state.x + cell.x
      let cellY := state.y + cell.y
      if cellX < 0 ∨ cellX ≥ width ∨ cellY < 0 then none
      else if cellY < height then some (mask ||| bit (cellY.toNat * width + cellX.toNat))
      else some mask)
    0

/-- Filled pose by pose in the source; every index is some pose's, so it is read off by index. -/
def compileStateMasks (width height ceiling : Nat) (piece : PieceKind) : List Board :=
  (List.range (4 * (ceiling + 1) * width)).map fun index =>
    (poseMask width height piece (stateFromIndex width ceiling index)).getD invalidStateMask

/-- Down, left, right: the order of the slots of a translation row. -/
def translationCandidates (state : State) : Fin 3 → State
  | 0 => { state with y := state.y - 1 }
  | 1 => { state with x := state.x - 1 }
  | 2 => { state with x := state.x + 1 }

def translationTarget (width ceiling : Nat) (stateMasks : List Board) (candidate : State) : Nat :=
  match stateIndex width ceiling candidate with
  | none => invalidStateIndex
  | some target =>
    if stateMasks.getD target invalidStateMask = invalidStateMask then invalidStateIndex
    else (u16TryFrom target).getD invalidStateIndex

def compileTranslationTargets (width ceiling : Nat) (stateMasks : List Board) :
    List (Fin 3 → Nat) :=
  (List.range stateMasks.length).map fun source slot =>
    translationTarget width ceiling stateMasks
      (translationCandidates (stateFromIndex width ceiling source) slot)

def compileSkySeeds (width height ceiling : Nat) (stateMasks : List Board) : List Nat :=
  (List.range stateMasks.length).filterMap fun source =>
    if (stateFromIndex width ceiling source).y ≥ height ∧
        stateMasks.getD source invalidStateMask ≠ invalidStateMask then
      u16TryFrom source
    else none

/-- One source's moves entered at their targets. -/
def recordReverseTranslations (reverse : List (Fin 3 → Nat)) (source : Nat)
    (targets : Fin 3 → Nat) : List (Fin 3 → Nat) :=
  match u16TryFrom source with
  | none => reverse
  | some source =>
    (List.finRange 3).foldl
      (fun reverse slot =>
        if targets slot ≠ invalidStateIndex then
          reverse.modify (targets slot) fun row => Function.update row slot source
        else reverse)
      reverse

def compileReverseTranslationSources (forward : List (Fin 3 → Nat)) : List (Fin 3 → Nat) :=
  forward.zipIdx.foldl (fun reverse p => recordReverseTranslations reverse p.2 p.1)
    (List.replicate forward.length fun _ => invalidStateIndex)

/-- The valid targets of one rotation, in kick order. -/
def rotationRow (width ceiling : Nat) (stateMasks : List Board) (deltas : List (List (Int × Int)))
    (source slot : Nat) : List Nat :=
  let state := stateFromIndex width ceiling source
  (deltas.getD (rotationTransitionIndex state.rotation slot) []).filterMap fun (dx, dy) =>
    match (rotationsFrom state.rotation)[slot]? with
    | none => none
    | some dst =>
      match stateIndex width ceiling ⟨dst, state.x + dx, state.y + dy⟩ with
      | none => none
      | some target =>
        if stateMasks.getD target invalidStateMask = invalidStateMask then none
        else u16TryFrom target

def compileRotationTargets (width ceiling : Nat) (stateMasks : List Board)
    (deltas : List (List (Int × Int))) : Csr Nat :=
  Csr.ofRows ((List.range stateMasks.length).flatMap fun source =>
    (List.range 3).map fun slot => rotationRow width ceiling stateMasks deltas source slot)

def compileSeedWords (stateCount : Nat) (seeds : List Nat) : List Board :=
  seeds.foldl (fun words index => words.modify (index / 64) (· ||| bit (index % 64)))
    (List.replicate ((stateCount + 63) / 64) 0)

structure ReverseRotationSource where
  source : Nat
  slot : Nat
  priorTargetCount : Nat
  deriving DecidableEq

/-- The entries of one rotation row, keyed by target. -/
def reverseRotationEntries (forward : Csr Nat) (transition : Nat) :
    List (Nat × ReverseRotationSource) :=
  match u16TryFrom (transition / 3) with
  | none => []
  | some source =>
    (forward.row transition).zipIdx.filterMap fun (target, prior) =>
      (u8TryFrom prior).map fun prior => (target, ⟨source, transition % 3, prior⟩)

def compileReverseRotationSources (stateCount : Nat) (forward : Csr Nat) :
    Csr ReverseRotationSource :=
  Csr.scatter stateCount forward.values
    ((List.range (stateCount * 3)).flatMap (reverseRotationEntries forward)) ⟨0, 0, 0⟩

structure ReachabilityTemplate where
  width : Nat
  height : Nat
  ceiling : Nat
  allow180 : Bool
  stateMasks : List Board
  translationTargets : List (Fin 3 → Nat)
  reverseTranslationSources : List (Fin 3 → Nat)
  skySeeds : List Nat
  skySeedWords : List Board
  rotationTargets : Csr Nat
  reverseRotationSources : Csr ReverseRotationSource

namespace ReachabilityTemplate

/-- `compile` with the profile looked up and the half-turn setting given. -/
def compileWith (width height : Nat) (piece : PieceKind) (allow180 : Bool)
    (profile : KickTableProfile) : ReachabilityTemplate :=
  let ceiling := sourceCeiling height piece allow180 profile
  let stateMasks := compileStateMasks width height ceiling piece
  let rotationTargets :=
    compileRotationTargets width ceiling stateMasks (kickDeltas piece allow180 profile)
  let translationTargets := compileTranslationTargets width ceiling stateMasks
  let skySeeds := compileSkySeeds width height ceiling stateMasks
  { width, height, ceiling, allow180, stateMasks, translationTargets
    reverseTranslationSources := compileReverseTranslationSources translationTargets
    skySeeds
    skySeedWords := compileSeedWords stateMasks.length skySeeds
    rotationTargets
    reverseRotationSources := compileReverseRotationSources stateMasks.length rotationTargets }

/-- `None` only where the source's `expect` fires: no such built-in profile. -/
def compile (width height : Nat) (piece : PieceKind) (profileId : KickTableProfileId) :
    Option ReachabilityTemplate :=
  (builtinKickProfile profileId).map fun profile =>
    compileWith width height piece profile.supports180 profile

def mask (t : ReachabilityTemplate) (index : Nat) : Board := t.stateMasks.getD index invalidStateMask

def isSkySeed (t : ReachabilityTemplate) (index : Nat) : Bool :=
  (t.skySeedWords.getD (index / 64) 0 &&& bit (index % 64)) ≠ 0

/-- Rows of the translation tables; out of range there is nothing to read. -/
def translationRow (table : List (Fin 3 → Nat)) (index : Nat) : List Nat :=
  (List.finRange 3).map (table.getD index fun _ => invalidStateIndex)

end ReachabilityTemplate

/-! ## Reading the tables against a board -/

/-- The test in front of every push: a valid pose whose cells are empty. -/
def placeable (t : ReachabilityTemplate) (board : Board) (index : Nat) : Bool :=
  t.mask index ≠ invalidStateMask && (board &&& t.mask index) = 0

def groundedIndex (t : ReachabilityTemplate) (board : Board) (index : Nat) : Bool :=
  if (stateFromIndex t.width t.ceiling index).y = 0 then true
  else
    let down := t.translationTargets.getD index (fun _ => invalidStateIndex) 0
    down = invalidStateIndex || (board &&& t.mask down) ≠ 0

def firstSuccessfulKick (t : ReachabilityTemplate) (board : Board) (source slot : Nat) :
    Option Nat :=
  (t.rotationTargets.row (source * 3 + slot)).find? fun target => (board &&& t.mask target) = 0

def reverseRotationIsFirstSuccess (t : ReachabilityTemplate) (board : Board)
    (source : ReverseRotationSource) : Bool :=
  let priorStart := t.rotationTargets.offsets.getD (source.source * 3 + source.slot) 0
  (slice t.rotationTargets.values priorStart (priorStart + source.priorTargetCount)).all
    fun target => (board &&& t.mask target) ≠ 0

/-! ## The reused scratch -/

/-- Marks, the number of the current search, and its queue. That no mark is newer than the current
    search is what makes a fresh number unmarked everywhere; it holds of the empty scratch and is
    kept by the two operations that write marks, so it is part of the type. -/
structure ReachabilityScratch where
  visitedGenerations : List UInt16
  generation : UInt16
  queue : List Nat
  marks_le : ∀ mark ∈ visitedGenerations, mark ≤ generation

namespace ReachabilityScratch

/-- `ReachabilityScratch::default()`. -/
def empty : ReachabilityScratch := ⟨[], 0, [], by simp⟩

/-- `visited_generations.resize(state_count, 0)`, when it is too short. -/
def resized (scratch : ReachabilityScratch) (stateCount : Nat) : List UInt16 :=
  if scratch.visitedGenerations.length < stateCount then
    scratch.visitedGenerations ++
      List.replicate (stateCount - scratch.visitedGenerations.length) 0
  else scratch.visitedGenerations

theorem mem_resized {scratch : ReachabilityScratch} {stateCount : Nat} {mark : UInt16}
    (h : mark ∈ scratch.resized stateCount) : mark ≤ scratch.generation := by
  unfold resized at h
  split at h
  · rw [List.mem_append, List.mem_replicate] at h
    rcases h with h | ⟨_, rfl⟩
    · exact scratch.marks_le mark h
    · exact UInt16.zero_le
  · exact scratch.marks_le mark h

/-- Short of the wrap the counter counts. -/
theorem toNat_add_one {generation : UInt16} (hwrap : generation + 1 ≠ 0) :
    (generation + 1).toNat = generation.toNat + 1 := by
  have hne : (generation + 1).toNat ≠ 0 := fun h0 => hwrap (UInt16.toNat_inj.mp h0)
  have hlt : generation.toNat < 65536 := generation.toNat_lt
  rw [UInt16.toNat_add] at hne ⊢
  change (generation.toNat + 1) % 65536 ≠ 0 at hne
  change (generation.toNat + 1) % 65536 = _
  omega

/-- `begin_search`: the next search number, over marks that know the table size. When the number
    wraps to zero the marks are cleared and counting restarts at one. -/
def beginSearch (scratch : ReachabilityScratch) (stateCount : Nat) : ReachabilityScratch :=
  if h : scratch.generation + 1 = 0 then
    { visitedGenerations := List.replicate (scratch.resized stateCount).length 0
      generation := 1
      queue := []
      marks_le := by
        intro mark hmark
        rw [(List.mem_replicate.mp hmark).2]
        exact UInt16.zero_le }
  else
    { visitedGenerations := scratch.resized stateCount
      generation := scratch.generation + 1
      queue := []
      marks_le := by
        intro mark hmark
        have hle := mem_resized hmark
        rw [UInt16.le_iff_toNat_le] at hle ⊢
        rw [toNat_add_one h]
        omega }

/-- `visited_generations[index] = generation; queue.push(index)`. -/
def mark (scratch : ReachabilityScratch) (index : Nat) : ReachabilityScratch :=
  { scratch with
    visitedGenerations := scratch.visitedGenerations.set index scratch.generation
    queue := scratch.queue ++ [index]
    marks_le := by
      intro mark hmark
      rcases List.mem_or_eq_of_mem_set hmark with h | rfl
      · exact scratch.marks_le mark h
      · exact UInt16.le_refl _ }

end ReachabilityScratch

def pushIndexIfPlaceable (t : ReachabilityTemplate) (board : Board)
    (scratch : ReachabilityScratch) (index : Nat) : ReachabilityScratch :=
  if placeable t board index = false then scratch
  else if scratch.visitedGenerations.getD index 0 ≠ scratch.generation then scratch.mark index
  else scratch

/-! ## Recorded locks -/

/-- `[u64; 4]`, one board of anchors per rotation. -/
structure ReachableLocks where
  anchors : RotationState → Board

namespace ReachableLocks

def empty : ReachableLocks := ⟨fun _ => 0⟩

/-- `anchors[rotation] |= 1 << anchor`. -/
def mark (locks : ReachableLocks) (rotation : RotationState) (anchor : Nat) : ReachableLocks :=
  ⟨Function.update locks.anchors rotation (locks.anchors rotation ||| bit anchor)⟩

def contains (locks : ReachableLocks) (width : Nat) (rotation : RotationState) (x y : Int) :
    Bool :=
  if x < 0 ∨ y < 0 ∨ x ≥ width then false
  else
    let anchor := y.toNat * width + x.toNat
    anchor < 64 && (locks.anchors rotation &&& bit anchor) ≠ 0

def containsAll (locks desired : ReachableLocks) : Bool :=
  RotationState.all.all fun r => (locks.anchors r &&& desired.anchors r) = desired.anchors r

end ReachableLocks

inductive DesiredLocks where
  | all (wanted : ReachableLocks)
  | any (wanted : ReachableLocks)

/-- Whether recording the lock at `state` satisfies the request. -/
def desiredReached (width : Nat) (locks : ReachableLocks) (state : State) :
    Option DesiredLocks → Bool
  | some (.all wanted) => locks.containsAll wanted
  | some (.any wanted) => wanted.contains width state.rotation state.x state.y
  | none => false

/-! ## Forward search -/

structure ReachabilitySearchResult where
  locks : ReachableLocks
  visitedStateCount : Nat
  exhaustive : Bool

/-- What one visited pose pushes: its three translations, then its rotations. -/
def pushForward (t : ReachabilityTemplate) (board : Board) (scratch : ReachabilityScratch)
    (index : Nat) : ReachabilityScratch :=
  let scratch := (ReachabilityTemplate.translationRow t.translationTargets index).foldl
    (fun scratch target =>
      if target ≠ invalidStateIndex then pushIndexIfPlaceable t board scratch target else scratch)
    scratch
  (List.range (if t.allow180 then 3 else 2)).foldl
    (fun scratch slot =>
      match firstSuccessfulKick t board index slot with
      | some rotated => pushIndexIfPlaceable t board scratch rotated
      | none => scratch)
    scratch

/-- The pose's anchor, recorded if it is grounded below the top. -/
def recordLock (t : ReachabilityTemplate) (board : Board) (locks : ReachableLocks) (index : Nat) :
    ReachableLocks :=
  let state := stateFromIndex t.width t.ceiling index
  if state.y < t.height ∧ groundedIndex t board index = true then
    locks.mark state.rotation (state.y.toNat * t.width + state.x.toNat)
  else locks

/-- The loop; `none` is fuel exhaustion, which the fuel of the caller rules out. -/
def searchLoop (t : ReachabilityTemplate) (board : Board) (desired : Option DesiredLocks) :
    Nat → Nat → ReachabilityScratch → ReachableLocks →
      Option (ReachabilitySearchResult × ReachabilityScratch)
  | fuel, cursor, scratch, locks =>
    match scratch.queue[cursor]? with
    | none => some (⟨locks, cursor, true⟩, scratch)
    | some index =>
      let state := stateFromIndex t.width t.ceiling index
      let locks := recordLock t board locks index
      if (state.y < t.height ∧ groundedIndex t board index = true) ∧
          desiredReached t.width locks state desired = true then
        some (⟨locks, cursor + 1, false⟩, scratch)
      else
        match fuel with
        | 0 => none
        | fuel + 1 => searchLoop t board desired fuel (cursor + 1)
            (pushForward t board scratch index) locks

def searchReachableLocksFromSeeds (t : ReachabilityTemplate) (board : Board)
    (scratch : ReachabilityScratch) (desired : Option DesiredLocks) (seeds : List Nat) :
    Option (ReachabilitySearchResult × ReachabilityScratch) :=
  let stateCount := 4 * (t.ceiling + 1) * t.width
  searchLoop t board desired stateCount 0
    (seeds.foldl (pushIndexIfPlaceable t board) (scratch.beginSearch stateCount)) .empty

/-- `search_reachable_locks`, and the scratch it leaves. -/
def searchReachableLocks (t : ReachabilityTemplate) (board : Board)
    (scratch : ReachabilityScratch) (desired : Option ReachableLocks) :
    Option (ReachabilitySearchResult × ReachabilityScratch) :=
  searchReachableLocksFromSeeds t board scratch (desired.map .all) t.skySeeds

/-! ## Reverse search -/

structure ReverseReachabilityResult where
  reachable : Bool
  visitedStateCount : Nat
  deriving DecidableEq

/-- What one visited pose pushes: the poses that translate to it, then those that rotate to it. -/
def pushReverse (t : ReachabilityTemplate) (board : Board) (scratch : ReachabilityScratch)
    (index : Nat) : ReachabilityScratch :=
  let scratch := (ReachabilityTemplate.translationRow t.reverseTranslationSources index).foldl
    (fun scratch source =>
      if source = invalidStateIndex then scratch else pushIndexIfPlaceable t board scratch source)
    scratch
  (t.reverseRotationSources.row index).foldl
    (fun scratch source =>
      if reverseRotationIsFirstSuccess t board source then
        pushIndexIfPlaceable t board scratch source.source
      else scratch)
    scratch

/-- `provenExits` is `None` in the instance without proven exits, whose word list is not read. -/
def isExit (t : ReachabilityTemplate) (provenExits : Option (List Board)) (index : Nat) : Bool :=
  t.isSkySeed index ||
    match provenExits with
    | none => false
    | some words =>
      match words[index / 64]? with
      | none => false
      | some word => (word &&& bit (index % 64)) ≠ 0

def reverseLoop (t : ReachabilityTemplate) (board : Board) (provenExits : Option (List Board)) :
    Nat → Nat → ReachabilityScratch → Option (ReverseReachabilityResult × ReachabilityScratch)
  | fuel, cursor, scratch =>
    match scratch.queue[cursor]? with
    | none => some (⟨false, cursor⟩, scratch)
    | some index =>
      if isExit t provenExits index then some (⟨true, cursor + 1⟩, scratch)
      else
        match fuel with
        | 0 => none
        | fuel + 1 => reverseLoop t board provenExits fuel (cursor + 1)
            (pushReverse t board scratch index)

def reverseLockReachableLarge (t : ReachabilityTemplate) (board : Board) (target : Nat)
    (scratch : ReachabilityScratch) (provenExits : Option (List Board)) :
    Option (ReverseReachabilityResult × ReachabilityScratch) :=
  let stateCount := t.stateMasks.length
  reverseLoop t board provenExits stateCount 0 ((scratch.beginSearch stateCount).mark target)

/-- `reverse_lock_reachable`, and the scratch it leaves. -/
def reverseLockReachable (t : ReachabilityTemplate) (board : Board) (rotation : RotationState)
    (x y : Int) (scratch : ReachabilityScratch) :
    Option (ReverseReachabilityResult × ReachabilityScratch) :=
  match stateIndex t.width t.ceiling ⟨rotation, x, y⟩ with
  | none => some (⟨false, 0⟩, scratch)
  | some target =>
    if t.mask target = invalidStateMask ∨ (board &&& t.mask target) ≠ 0 ∨
        groundedIndex t board target = false then
      some (⟨false, 0⟩, scratch)
    else reverseLockReachableLarge t board target scratch none

end Clearra.Executor
