import Clearra.Executor.LockCache
import Clearra.Proof.Executor.Reachability

/-!
# The workspace answers what the search would

The cache never decides anything: `SlotSound` says what a slot may claim, every operation keeps it
(`CacheSound`), and a query under it is answered by the cache only with the truth. So whatever the
workspace has been asked before, whatever was evicted and whether or not there is memory for a
cache at all, its answer is the hard-drop test or the search's — `lockReachableInstantiated_spec`.
-/

namespace Clearra.Proof.Executor

open Clearra.Executor Function List
open Clearra.Rules

/-- Grounded, and reachable from the sky: what both searches decide. -/
def LockTruth (width height : Nat) (profile : KickTableProfile) (board : Board) (piece : PieceKind)
    (rotation : RotationState) (x y : Int) : Prop :=
  let g : Arena := ⟨width, height, piece, profile.supports180, profile, board⟩
  g.Grounded ⟨rotation, x, y⟩ ∧ g.Reachable (some (ceilingOf g)) ⟨rotation, x, y⟩

/-! ## Sets of locks -/

variable {x y : Int}

theorem contains_unionWith {a b : ReachableLocks} {width : Nat} {r : RotationState} :
    (a.unionWith b).contains width r x y = true ↔
      a.contains width r x y = true ∨ b.contains width r x y = true := by
  rw [contains_iff, contains_iff, contains_iff, ReachableLocks.unionWith, BitVec.getLsbD_or,
    Bool.or_eq_true]
  tauto

theorem not_contains_empty {width : Nat} {r : RotationState} :
    ReachableLocks.empty.contains width r x y = false := by
  rw [Bool.eq_false_iff, ne_eq, contains_iff, ReachableLocks.empty]
  simp

theorem eq_of_contains_insert {width : Nat} {r r' : RotationState} {x y x' y' : Int}
    (h : (ReachableLocks.empty.insert width r x y).contains width r' x' y' = true) :
    r' = r ∧ x' = x ∧ y' = y := by
  unfold ReachableLocks.insert at h
  split at h
  · rw [not_contains_empty] at h
    simp at h
  rename_i hrange
  dsimp only at h
  split at h
  · rw [contains_iff, ReachableLocks.mark] at h
    obtain ⟨hx', hy', hxw', hbit⟩ := h
    dsimp only at hbit
    by_cases hr : r' = r
    · subst hr
      rw [update_self, ReachableLocks.empty, bit, BitVec.getLsbD_or,
        Lib.getLsbD_one_shiftLeft] at hbit
      have hanchor : y'.toNat * width + x'.toNat = y.toNat * width + x.toNat := by
        simpa using (by simpa using hbit : _ ∧ _).1
      obtain ⟨hx, hy⟩ := anchor_inj ⟨hx', hxw'⟩ ⟨by omega, by omega⟩ hy' (by omega) hanchor
      exact ⟨rfl, hx, hy⟩
    · rw [update_of_ne hr, ReachableLocks.empty] at hbit
      simp at hbit
  · rw [not_contains_empty] at h
    simp at h

/-! ## What a slot may claim -/

/-- Claims about the locks of one board and piece. -/
structure LocksSound (width height : Nat) (profile : KickTableProfile) (board : Board)
    (piece : PieceKind) (locks unreachableLocks : ReachableLocks) (exhaustive : Bool) : Prop where
  reachable : ∀ r x y, y < (height : Int) → locks.contains width r x y = true →
    LockTruth width height profile board piece r x y
  unreachable : ∀ r x y, y < (height : Int) → unreachableLocks.contains width r x y = true →
    ¬LockTruth width height profile board piece r x y
  exhaustive : exhaustive = true → ∀ r x y, y < (height : Int) →
    LockTruth width height profile board piece r x y → locks.contains width r x y = true

def SlotSound (width height : Nat) (profile : KickTableProfile) (slot : CacheSlot) : Prop :=
  slot.valid = true → ∀ piece : PieceKind, slot.pieceCode = piece.index + 1 →
    LocksSound width height profile slot.board piece slot.locks slot.unreachableLocks
      slot.exhaustive

def CacheSound (width height : Nat) (profile : KickTableProfile) (cache : ReachabilityCache) :
    Prop :=
  ∀ slot ∈ cache.slots, SlotSound width height profile slot

section

variable {width height : Nat} {profile : KickTableProfile} {cache : ReachabilityCache}

theorem slotSound_vacant : SlotSound width height profile .vacant := by
  intro h
  exact absurd h (by simp [CacheSlot.vacant])

variable {board : Board} {piece : PieceKind}

theorem LocksSound.union {a b u v : ReachableLocks} {e f : Bool}
    (h : LocksSound width height profile board piece a u e)
    (h' : LocksSound width height profile board piece b v f) :
    LocksSound width height profile board piece (a.unionWith b) (u.unionWith v) (e || f) := by
  refine ⟨fun r x y hy hc => ?_, fun r x y hy hc => ?_, fun he r x y hy ht => ?_⟩
  · rcases contains_unionWith.mp hc with hc | hc
    · exact h.reachable r x y hy hc
    · exact h'.reachable r x y hy hc
  · rcases contains_unionWith.mp hc with hc | hc
    · exact h.unreachable r x y hy hc
    · exact h'.unreachable r x y hy hc
  · rw [contains_unionWith]
    rcases Bool.or_eq_true _ _ ▸ he with he | he
    · exact .inl (h.exhaustive he r x y hy ht)
    · exact .inr (h'.exhaustive he r x y hy ht)

/-! ## Every operation keeps it -/

theorem cacheSound_of_nil (h : cache.slots = []) : CacheSound width height profile cache := by
  intro slot hslot
  rw [h] at hslot
  exact absurd hslot not_mem_nil

section

variable (h : CacheSound width height profile cache)
include h

theorem CacheSound.slot (index : Nat) :
    SlotSound width height profile (cache.slot index) := by
  rw [ReachabilityCache.slot, getD_eq_getElem?_getD]
  cases hget : cache.slots[index]? with
  | none => exact slotSound_vacant
  | some slot => exact h slot (mem_of_getElem? hget)

theorem CacheSound.setSlot {index : Nat}
    {slot : CacheSlot} (hslot : SlotSound width height profile slot) :
    CacheSound width height profile (cache.setSlot index slot) := by
  intro other hother
  rcases mem_or_eq_of_mem_set hother with hmem | rfl
  · exact h other hmem
  · exact hslot

theorem CacheSound.ensure (storage : Bool) :
    CacheSound width height profile (cache.ensure storage).2 := by
  rw [ReachabilityCache.ensure]
  split
  · rw [ReachabilityCache.initializeStorage]
    split
    · exact h
    · split
      · exact cacheSound_of_nil rfl
      · intro slot hslot
        rw [eq_of_mem_replicate hslot]
        exact slotSound_vacant
  · exact h

theorem CacheSound.observe (hash : BitVec 64) :
    CacheSound width height profile (cache.observe hash).2 := by
  rw [ReachabilityCache.observe]
  split
  · exact h
  · exact h

end

theorem holds_iff {slot : CacheSlot} {pieceCode : Nat} :
    slot.holds board pieceCode = true ↔
      slot.valid = true ∧ slot.board = board ∧ slot.pieceCode = pieceCode := by
  simp [CacheSlot.holds, and_assoc]

/-- What a slot that holds the key says about it. -/
theorem CacheSound.holds (h : CacheSound width height profile cache) {index : Nat}
    (hholds : (cache.slot index).holds board (piece.index + 1) = true) :
    LocksSound width height profile board piece (cache.slot index).locks
      (cache.slot index).unreachableLocks (cache.slot index).exhaustive := by
  obtain ⟨hvalid, hboard, hcode⟩ := holds_iff.mp hholds
  rw [← hboard]
  exact h.slot index hvalid piece hcode

/-- Answers are true, and asking keeps the cache sound. -/
theorem CacheSound.query (h : CacheSound width height profile cache) (storage : Bool)
    (board : Board) (piece : PieceKind) (r : RotationState) (hy : y < (height : Int)) :
    CacheSound width height profile (cache.query storage board piece width r x y).2 ∧
      ((cache.query storage board piece width r x y).1 = .reachable →
        LockTruth width height profile board piece r x y) ∧
      ((cache.query storage board piece width r x y).1 = .exhaustivelyUnreachable →
        ¬LockTruth width height profile board piece r x y) := by
  have hensured := h.ensure storage
  rw [ReachabilityCache.query]
  cases hens : cache.ensure storage with
  | mk usable cache' =>
    rw [hens] at hensured
    cases usable with
    | false => exact ⟨hensured, by simp, by simp⟩
    | true =>
      dsimp only at hensured ⊢
      cases hfind : (cache'.ways board (piece.index + 1)).find? fun index =>
          (cache'.slot index).holds board (piece.index + 1) with
      | none =>
        exact ⟨hensured.observe _, by simp, by simp⟩
      | some index =>
        have hholds := find?_some hfind
        have hsound := hensured.holds hholds
        dsimp only
        split
        · rename_i hc
          exact ⟨hensured, fun _ => hsound.reachable r x y hy hc, by simp⟩
        · rename_i hc
          split
          · rename_i hu
            exact ⟨hensured, by simp, fun _ => hsound.unreachable r x y hy hu⟩
          · split
            · rename_i he
              exact ⟨hensured, by simp, fun _ ht => hc (hsound.exhaustive he r x y hy ht)⟩
            · -- only the observation count of the slot changes
              refine ⟨hensured.setSlot ?_, by simp, by simp⟩
              exact hensured.slot index

theorem place_present {pieceCode index : Nat} : ∀ {indices : List Nat} {victim observation : Nat},
    cache.place board pieceCode indices victim observation = .present index →
      (cache.slot index).holds board pieceCode = true := by
  intro indices
  induction indices with
  | nil =>
    intro victim observation h
    exact absurd h (by simp [ReachabilityCache.place])
  | cons i rest ih =>
    intro victim observation h
    rw [ReachabilityCache.place] at h
    split at h
    · rename_i hholds
      cases h
      exact hholds
    · split at h
      · simp at h
      · split at h
        · exact ih h
        · exact ih h

theorem CacheSound.insert (h : CacheSound width height profile cache) (storage : Bool)
    {locks unreachableLocks : ReachableLocks} {exhaustive : Bool} (admitted : Bool)
    (hlocks : LocksSound width height profile board piece locks unreachableLocks exhaustive) :
    CacheSound width height profile
      (cache.insert storage board piece locks unreachableLocks exhaustive admitted) := by
  have hensured := h.ensure storage
  rw [ReachabilityCache.insert]
  split
  · exact h
  cases hens : cache.ensure storage with
  | mk usable cache' =>
    rw [hens] at hensured
    cases usable with
    | false => exact hensured
    | true =>
      dsimp only at hensured ⊢
      split
      · rename_i index hplace
        have hholds := place_present hplace
        refine hensured.setSlot fun _ piece' hcode => ?_
        have hpiece : piece' = piece := by
          have hsame := (holds_iff.mp hholds).2.2.symm.trans hcode
          exact PieceKind.index_injective (by omega)
        have hboard := (holds_iff.mp hholds).2.1
        subst hpiece
        dsimp only
        rw [hboard]
        exact (hensured.holds hholds).union hlocks
      · split
        · exact hensured
        · refine hensured.setSlot fun _ piece' hcode => ?_
          have hpiece : piece' = piece := PieceKind.index_injective (by
            dsimp only at hcode
            omega)
          subst hpiece
          exact hlocks

end

/-! ## A search's findings -/

section

variable {width height : Nat} {profileId : KickTableProfileId} {profile : KickTableProfile}

/-- Both searches end with the truth, and report only truths to the cache. -/
theorem searchLock_spec (hheight : 0 < height) (hcells : width * height ≤ 64)
    (hprofile : builtinKickProfile profileId = some profile) (board : Board) (piece : PieceKind)
    (r : RotationState) (hy : y < (height : Int)) (exhaustive : Bool)
    (scratch : ReachabilityScratch) :
    ∃ template reachable locks unreachableLocks allLocks scratch',
      ReachabilityTemplate.compile width height piece profileId = some template ∧
      ReachabilityWorkspace.searchLock template board width r x y exhaustive scratch =
        some (reachable, locks, unreachableLocks, allLocks, scratch') ∧
      (reachable = true ↔ LockTruth width height profile board piece r x y) ∧
      LocksSound width height profile board piece locks unreachableLocks allLocks := by
  let g : Arena := ⟨width, height, piece, profile.supports180, profile, board⟩
  have hs : Small g := .of_cells hprofile hheight hcells
  have hcompile : ReachabilityTemplate.compile width height piece profileId =
      some (templateOf g) := by
    rw [ReachabilityTemplate.compile, hprofile]
    rfl
  unfold ReachabilityWorkspace.searchLock
  cases exhaustive with
  | true =>
    obtain ⟨forward, after, hforward, hall, hlocks⟩ := searchReachableLocks_spec hs hcells scratch
    refine ⟨_, forward.locks.contains width r x y, forward.locks, .empty, forward.exhaustive, after,
      hcompile, ?_, hlocks r x y hy, ?_⟩
    · rw [if_pos rfl]
      exact congrArg (Option.bind · _) hforward
    · refine ⟨fun r x y hy => (hlocks r x y hy).mp, fun r x y _ hc => ?_,
        fun _ r x y hy => (hlocks r x y hy).mpr⟩
      rw [not_contains_empty] at hc
      simp at hc
  | false =>
    obtain ⟨reverse, after, hreverse, hiff⟩ := reverseLockReachable_spec hs r x y scratch
    let desired := ReachableLocks.empty.insert width r x y
    refine ⟨_, reverse.reachable, if reverse.reachable then desired else .empty,
      if reverse.reachable then .empty else desired, false, after, hcompile, ?_, hiff, ?_⟩
    · rw [if_neg (by simp)]
      exact congrArg (Option.bind · _) hreverse
    · refine ⟨fun r' x' y' _ hc => ?_, fun r' x' y' _ hc => ?_, by simp⟩
      · split at hc
        · rename_i hreach
          obtain ⟨rfl, rfl, rfl⟩ := eq_of_contains_insert hc
          exact hiff.mp hreach
        · rw [not_contains_empty] at hc
          simp at hc
      · split at hc
        · rw [not_contains_empty] at hc
          simp at hc
        · rename_i hreach
          obtain ⟨rfl, rfl, rfl⟩ := eq_of_contains_insert hc
          exact fun ht => hreach (hiff.mpr ht)

end

/-! ## The workspace -/

/-- What is cached is true of the dimensions and the profile the workspace is set to. -/
def WorkspaceSound (ws : ReachabilityWorkspace) : Prop :=
  ∀ width height profile, ws.templateDimensions = some (width, height) →
    builtinKickProfile ws.kickProfileId = some profile →
    CacheSound width height profile ws.cache

theorem workspaceSound_initial : WorkspaceSound .initial := by
  intro width height profile h
  exact absurd h (by simp [ReachabilityWorkspace.initial])

variable {ws : ReachabilityWorkspace}

theorem WorkspaceSound.configure (h : WorkspaceSound ws) (n : Nat) :
    WorkspaceSound (ws.configure n) := h

theorem WorkspaceSound.configureKickProfile (h : WorkspaceSound ws) (profileId : KickTableProfileId) :
    WorkspaceSound (ws.configureKickProfile profileId) := by
  rw [ReachabilityWorkspace.configureKickProfile]
  split
  · intro width height profile hdims
    exact absurd hdims (by simp [ReachabilityWorkspace.clearCachePreservingPolicy])
  · exact h

theorem WorkspaceSound.prepareTemplate (h : WorkspaceSound ws) (width height : Nat) :
    WorkspaceSound (ws.prepareTemplate width height) ∧
      (ws.prepareTemplate width height).templateDimensions = some (width, height) ∧
      (ws.prepareTemplate width height).kickProfileId = ws.kickProfileId := by
  rw [ReachabilityWorkspace.prepareTemplate]
  split
  · exact ⟨fun _ _ _ _ _ => cacheSound_of_nil rfl, rfl, rfl⟩
  · rename_i hsame
    exact ⟨h, not_not.mp hsame, rfl⟩

theorem lockReachableCached_spec (h : WorkspaceSound ws) (storage : Bool) {width height : Nat}
    (hheight : 0 < height) (hcells : width * height ≤ 64) {profile : KickTableProfile}
    (hprofile : builtinKickProfile ws.kickProfileId = some profile)
    (hdims : ws.templateDimensions = some (width, height)) (board : Board) (piece : PieceKind)
    (r : RotationState) (hy : y < (height : Int)) :
    ∃ answer ws', ws.lockReachableCached storage width height board piece r x y =
        some (answer, ws') ∧ WorkspaceSound ws' ∧ ws'.kickProfileId = ws.kickProfileId ∧
      ws'.templateDimensions = some (width, height) ∧
      (answer = true ↔ LockTruth width height profile board piece r x y) := by
  have hcache := h width height profile hdims hprofile
  -- the dimensions and the profile stay, so soundness is that of the new cache
  have hkeep : ∀ {cache : ReachabilityCache} {scratch : ReachabilityScratch},
      CacheSound width height profile cache → WorkspaceSound { ws with cache, scratch } := by
    intro cache scratch hc width' height' profile' hdims' hprofile'
    have hd := Option.some.inj (hdims.symm.trans hdims')
    have hp := Option.some.inj (hprofile.symm.trans hprofile')
    obtain ⟨rfl, rfl⟩ := Prod.mk.inj hd
    subst hp
    exact hc
  obtain ⟨hafter, hyes, hno⟩ := hcache.query storage board piece r (x := x) hy
  rw [ReachabilityWorkspace.lockReachableCached]
  cases hq : ws.cache.query storage board piece width r x y with
  | mk lookup cache =>
    rw [hq] at hafter hyes hno
    cases lookup with
    | reachable =>
      exact ⟨true, _, rfl, hkeep hafter, rfl, hdims, fun _ => hyes rfl, fun _ => rfl⟩
    | exhaustivelyUnreachable =>
      exact ⟨false, _, rfl, hkeep hafter, rfl, hdims, by simp, fun ht => absurd ht (hno rfl)⟩
    | search exhaustive admitted =>
      obtain ⟨template, answer, locks, unreachableLocks, allLocks, scratch, hcompile, hsearch,
        hanswer, hlocks⟩ := searchLock_spec hheight hcells hprofile board piece r hy exhaustive
          ws.scratch
      refine ⟨answer, { ws with
        cache := cache.insert storage board piece locks unreachableLocks allLocks admitted
        scratch }, ?_, hkeep (hafter.insert storage admitted hlocks), rfl, hdims, hanswer⟩
      dsimp only
      rw [hcompile]
      exact congrArg (Option.bind · _) hsearch

/-- What the workspace answers to a lock query, on any board and whatever it was asked before. -/
def WorkspaceReaches (width height : Nat) (profile : KickTableProfile) (board : Board)
    (piece : PieceKind) (realization : InstantiatedRealization) : Prop :=
  ReachabilityWorkspace.lockHarddropReachable width board realization = true ∨
    LockTruth width height profile board piece realization.rotation realization.x realization.lockY

theorem lockReachableInstantiated_spec (h : WorkspaceSound ws) (storage : Bool) {width height : Nat}
    (hheight : 0 < height) (hcells : width * height ≤ 64) {profile : KickTableProfile}
    (hprofile : builtinKickProfile ws.kickProfileId = some profile) (board : Board)
    (piece : PieceKind) {realization : InstantiatedRealization} (hy : realization.lockY < height) :
    ∃ answer ws', ws.lockReachableInstantiated storage width height board piece realization =
        some (answer, ws') ∧ WorkspaceSound ws' ∧ ws'.kickProfileId = ws.kickProfileId ∧
      (answer = true ↔ WorkspaceReaches width height profile board piece realization) := by
  rw [ReachabilityWorkspace.lockReachableInstantiated]
  split
  · rename_i hdrop
    exact ⟨true, ws, rfl, h, rfl, fun _ => .inl hdrop, fun _ => rfl⟩
  · rename_i hdrop
    obtain ⟨hsound, hdims, hprofile'⟩ := h.prepareTemplate width height
    rw [← hprofile'] at hprofile
    obtain ⟨answer, ws', hrun, hsound', hkeep, -, hanswer⟩ := lockReachableCached_spec hsound storage
      hheight hcells hprofile hdims board piece realization.rotation (x := realization.x) hy
    exact ⟨answer, ws', hrun, hsound', hkeep.trans hprofile',
      hanswer.trans ⟨Or.inr, fun hreach => hreach.resolve_left hdrop⟩⟩

end Clearra.Proof.Executor
