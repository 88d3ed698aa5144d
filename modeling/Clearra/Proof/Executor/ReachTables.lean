import Clearra.Proof.Executor.Poses

/-!
# The compiled tables say what the game says

For each table of `ReachabilityTemplate.compileWith`, what a reader of it gets, in terms of poses:
masks (`placeable_iff_free`), translations, rotations (`firstSuccessfulKick_eq`), the two reversed
tables and the sky. Together they give the two facts the searches need — an index is forward
adjacent to another exactly when the game has that move (`mem_forwardSucc`), and backward adjacent
exactly when it is forward adjacent the other way round (`mem_reverseSucc`).

Indices are stored as `u16` and kick positions as `u8`, and the compiler silently drops what does
not fit. `Small` says that everything fits; `Small.of_builtin` that it always does.
-/

namespace Clearra.Proof.Executor

open Clearra.Executor List
open Clearra.Executor.Arena
open Clearra.Rules

/-! ## The template of an arena -/

/-- The row the tables stop at. -/
def ceilingOf (g : Arena) : Nat := sourceCeiling g.height g.piece g.allow180 g.profile

def stateCount (g : Arena) : Nat := 4 * (ceilingOf g + 1) * g.width

def templateOf (g : Arena) : ReachabilityTemplate :=
  .compileWith g.width g.height g.piece g.allow180 g.profile

def poseOf (g : Arena) (i : Nat) : State := stateFromIndex g.width (ceilingOf g) i

/-- Nothing is dropped for not fitting its integer type. -/
structure Small (g : Arena) : Prop where
  states : stateCount g ≤ 65535
  kicks : ∀ src dst offsets, g.profile.sequenceFor ⟨g.piece, src, dst⟩ = some offsets →
    offsets.length ≤ 256

@[simp] theorem templateOf_width (g : Arena) : (templateOf g).width = g.width := rfl
@[simp] theorem templateOf_height (g : Arena) : (templateOf g).height = g.height := rfl
@[simp] theorem templateOf_ceiling (g : Arena) : (templateOf g).ceiling = ceilingOf g := rfl
@[simp] theorem templateOf_allow180 (g : Arena) : (templateOf g).allow180 = g.allow180 := rfl

theorem templateOf_stateMasks (g : Arena) : (templateOf g).stateMasks =
    compileStateMasks g.width g.height (ceilingOf g) g.piece := rfl

@[simp] theorem length_stateMasks (g : Arena) :
    (templateOf g).stateMasks.length = stateCount g := by
  rw [templateOf_stateMasks, compileStateMasks, length_map, length_range, stateCount]

variable {g : Arena} {i : Nat}

theorem stateIndex_poseOf (h : i < stateCount g) :
    stateIndex g.width (ceilingOf g) (poseOf g i) = some i := stateIndex_stateFromIndex h

variable {s : State}

theorem poseOf_of_stateIndex (h : stateIndex g.width (ceilingOf g) s = some i) :
    poseOf g i = s ∧ i < stateCount g :=
  stateFromIndex_of_stateIndex h

theorem poseOf_injective {i j : Nat} (hi : i < stateCount g) (hj : j < stateCount g)
    (h : poseOf g i = poseOf g j) : i = j := by
  have h1 := stateIndex_poseOf hi
  rw [h, stateIndex_poseOf hj] at h1
  exact (Option.some.inj h1).symm

theorem under_poseOf (h : i < stateCount g) : Under (some (ceilingOf g)) (poseOf g i) := by
  rw [under_some]
  exact (stateIndex_eq_some.mp (stateIndex_poseOf h)).1.2.2.2

theorem exists_index (hunder : Under (some (ceilingOf g)) s) (hfit : g.Fits s) :
    ∃ i, stateIndex g.width (ceilingOf g) s = some i :=
  stateIndex_isSome ⟨hfit.x_nonneg, hfit.x_lt, hfit.y_nonneg, under_some.mp hunder⟩

/-! ## Masks -/

theorem mask_eq (h : i < stateCount g) : (templateOf g).mask i =
    (poseMask g.width g.height g.piece (poseOf g i)).getD invalidStateMask := by
  rw [ReachabilityTemplate.mask, templateOf_stateMasks, compileStateMasks, ← stateCount,
    getD_eq_getElem?_getD, getElem?_map, getElem?_range h]
  rfl

theorem mask_of_ge (h : stateCount g ≤ i) : (templateOf g).mask i = invalidStateMask := by
  rw [ReachabilityTemplate.mask, getD_eq_getElem?_getD,
    getElem?_eq_none (by rw [length_stateMasks]; exact h)]
  rfl

theorem mask_ne_invalid_iff (h : i < stateCount g) :
    (templateOf g).mask i ≠ invalidStateMask ↔ g.Fits (poseOf g i) := by
  rw [mask_eq h]
  by_cases hfit : g.Fits (poseOf g i)
  · obtain ⟨m, hm, hbits⟩ := poseMask_of_fits hfit
    rw [hm, Option.getD_some]
    exact ⟨fun _ => hfit, fun _ => ne_invalidStateMask hbits⟩
  · rw [poseMask_of_not_fits hfit, Option.getD_none]
    exact ⟨fun h' => absurd rfl h', fun h' => absurd h' hfit⟩

theorem and_mask_eq_zero_iff (h : i < stateCount g) (hfit : g.Fits (poseOf g i)) :
    (g.board &&& (templateOf g).mask i) = 0 ↔
      g.Clear (poseOf g i) := by
  obtain ⟨m, hm, hbits⟩ := poseMask_of_fits hfit
  rw [mask_eq h, hm, Option.getD_some]
  exact and_poseMask_eq_zero hbits

theorem placeable_iff_free : placeable (templateOf g) g.board i = true ↔
    i < stateCount g ∧ g.Free (some (ceilingOf g)) (poseOf g i) := by
  unfold placeable
  rw [Bool.and_eq_true, decide_eq_true_eq, decide_eq_true_eq]
  by_cases hi : i < stateCount g
  · rw [mask_ne_invalid_iff hi]
    constructor
    · rintro ⟨hfit, hclear⟩
      exact ⟨hi, under_poseOf hi, hfit, (and_mask_eq_zero_iff hi hfit).mp hclear⟩
    · rintro ⟨-, -, hfit, hclear⟩
      exact ⟨hfit, (and_mask_eq_zero_iff hi hfit).mpr hclear⟩
  · rw [mask_of_ge (by omega)]
    exact ⟨fun h => absurd rfl h.1, fun h => absurd h.1 hi⟩

/-! ## Translations -/

/-- The index of a target, when the table keeps it. -/
def keptIndex (g : Arena) (s : State) : Option Nat :=
  match stateIndex g.width (ceilingOf g) s with
  | none => none
  | some target =>
    if (templateOf g).stateMasks.getD target invalidStateMask = invalidStateMask then none
    else u16TryFrom target

theorem keptIndex_eq_some (hs : Small g) {j : Nat} :
    keptIndex g s = some j ↔ stateIndex g.width (ceilingOf g) s = some j ∧ g.Fits s := by
  unfold keptIndex
  cases hidx : stateIndex g.width (ceilingOf g) s with
  | none => exact ⟨by simp, fun h => absurd h.1 (by simp)⟩
  | some i =>
    obtain ⟨hpose, hi⟩ := poseOf_of_stateIndex hidx
    have hvalid := mask_ne_invalid_iff hi
    rw [hpose] at hvalid
    have hu16 : u16TryFrom i = some i := if_pos (by have := hs.states; omega)
    change (if (templateOf g).mask i = invalidStateMask then _ else _) = some j ↔ _
    by_cases hm : (templateOf g).mask i = invalidStateMask
    · rw [if_pos hm]
      exact ⟨by simp, fun h => absurd hm (hvalid.mpr h.2)⟩
    · rw [if_neg hm, hu16]
      exact ⟨fun h => ⟨h, hvalid.mp hm⟩, fun h => h.1⟩

/-- A table entry names a pose that fits, and names it by its index. -/
theorem translationTarget_eq_iff (hs : Small g) {cand : State} {j : Nat}
    (hj : j ≠ invalidStateIndex) :
    translationTarget g.width (ceilingOf g) (templateOf g).stateMasks cand = j ↔
      stateIndex g.width (ceilingOf g) cand = some j ∧ g.Fits cand := by
  have hkept : translationTarget g.width (ceilingOf g) (templateOf g).stateMasks cand =
      (keptIndex g cand).getD invalidStateIndex := by
    unfold translationTarget keptIndex
    cases stateIndex g.width (ceilingOf g) cand with
    | none => rfl
    | some i =>
      dsimp only
      split <;> rfl
  rw [← keptIndex_eq_some hs, hkept]
  cases keptIndex g cand with
  | none => exact ⟨fun h => absurd h.symm hj, by simp⟩
  | some i => exact Option.some_inj.symm

theorem translationTargets_getD (h : i < stateCount g) (slot : Fin 3) :
    (templateOf g).translationTargets.getD i (fun _ => invalidStateIndex) slot =
      translationTarget g.width (ceilingOf g) (templateOf g).stateMasks
        (translationCandidates (poseOf g i) slot) := by
  have htab : (templateOf g).translationTargets =
      compileTranslationTargets g.width (ceilingOf g) (templateOf g).stateMasks := rfl
  rw [htab, compileTranslationTargets, getD_eq_getElem?_getD, getElem?_map,
    getElem?_range (by rw [length_stateMasks]; exact h)]
  rfl

/-- Entry `slot` of row `i`: where the move leads, when it leads anywhere. -/
theorem translationTargets_eq_iff (hs : Small g) {i j : Nat} (hi : i < stateCount g)
    (hj : j ≠ invalidStateIndex) (slot : Fin 3) :
    (templateOf g).translationTargets.getD i (fun _ => invalidStateIndex) slot = j ↔
      stateIndex g.width (ceilingOf g) (translationCandidates (poseOf g i) slot) = some j ∧
        g.Fits (translationCandidates (poseOf g i) slot) := by
  rw [translationTargets_getD hi]
  exact translationTarget_eq_iff hs hj

theorem groundedIndex_iff (hs : Small g) (hi : i < stateCount g) (hfit : g.Fits (poseOf g i)) :
    groundedIndex (templateOf g) g.board i = true ↔ g.Grounded (poseOf g i) := by
  unfold groundedIndex Grounded
  change (if (poseOf g i).y = 0 then true else _) = true ↔ _
  by_cases hy : (poseOf g i).y = 0
  · rw [if_pos hy]
    refine ⟨fun _ hfree => ?_, fun _ => rfl⟩
    have := hfree.2.1.y_nonneg
    dsimp only at this
    omega
  · rw [if_neg hy]
    -- off the floor the pose below fits, so the table names it
    have hpos : 0 ≤ (poseOf g i).y - 1 := by have := hfit.y_nonneg; omega
    have hdownfit : g.Fits (translationCandidates (poseOf g i) 0) := hfit.of_row hpos
    have hunder : Under (some (ceilingOf g)) (translationCandidates (poseOf g i) 0) := by
      rw [under_some]
      have := under_some.mp (under_poseOf hi)
      simp only [translationCandidates]
      omega
    obtain ⟨j, hj⟩ := exists_index hunder hdownfit
    obtain ⟨hpose, hjn⟩ := poseOf_of_stateIndex hj
    have hjne : j ≠ invalidStateIndex := by
      have := hs.states
      unfold invalidStateIndex
      omega
    have hdown := (translationTargets_eq_iff hs hi hjne 0).mpr ⟨hj, hdownfit⟩
    dsimp only
    rw [hdown, Bool.or_eq_true, decide_eq_true_eq, decide_eq_true_eq]
    have hclear := and_mask_eq_zero_iff hjn (by rw [hpose]; exact hdownfit)
    rw [hpose] at hclear
    constructor
    · rintro (h | h)
      · exact absurd h hjne
      · exact fun hfree => h (hclear.mpr hfree.2.2)
    · exact fun h => .inr fun h0 => h ⟨under_none _, hdownfit, hclear.mp h0⟩

/-! ## Rotations -/

variable {slot : Nat}

theorem kickDeltas_row (piece : PieceKind) (allow180 : Bool) (profile : KickTableProfile)
    (r : RotationState) {dst : RotationState} (h : (rotationsFrom r)[slot]? = some dst) :
    (kickDeltas piece allow180 profile).getD (rotationTransitionIndex r slot) [] =
      if slot = 2 ∧ allow180 = false then []
      else
        match profile.sequenceFor ⟨piece, r, dst⟩ with
        | some offsets => offsets.map (normalizedKickDelta piece r dst)
        | none => [] := by
  have hslot : slot < 3 := (List.getElem?_eq_some_iff.mp h).1
  cases r <;> interval_cases slot <;> cases h <;> rfl

/-- The kick list compiled for a slot: empty for a half turn that is not allowed. -/
theorem kickDeltas_getD (piece : PieceKind) (allow180 : Bool) (profile : KickTableProfile)
    (r : RotationState) {dst : RotationState} (h : (rotationsFrom r)[slot]? = some dst) :
    (kickDeltas piece allow180 profile).getD (rotationTransitionIndex r slot) [] =
      if slot = 2 ∧ allow180 = false then []
      else ((profile.sequenceFor ⟨piece, r, dst⟩).getD []).map
        (normalizedKickDelta piece r dst) := by
  rw [kickDeltas_row piece allow180 profile r h]
  cases profile.sequenceFor ⟨piece, r, dst⟩ <;> rfl

/-- The rotations of slot `slot` that `g` knows: a half turn only when it is allowed. -/
def slotTargets (g : Arena) (s : State) (slot : Nat) : List State :=
  match (rotationsFrom s.rotation)[slot]? with
  | none => []
  | some dst => if slot = 2 ∧ g.allow180 = false then [] else g.kickTargets s dst

theorem rotationRow_eq (g : Arena) (i : Nat) (hslot : slot < 3) :
    rotationRow g.width (ceilingOf g) (templateOf g).stateMasks
        (kickDeltas g.piece g.allow180 g.profile) i slot =
      (slotTargets g (poseOf g i) slot).filterMap (keptIndex g) := by
  unfold rotationRow slotTargets poseOf
  generalize stateFromIndex g.width (ceilingOf g) i = s
  have hdst := getElem?_eq_getElem (show slot < (rotationsFrom s.rotation).length from hslot)
  dsimp only
  rw [hdst, kickDeltas_getD _ _ _ _ hdst]
  by_cases h180 : slot = 2 ∧ g.allow180 = false
  · simp [h180]
  · simp only [if_neg h180, kickTargets, filterMap_map]
    rfl

theorem rotationTargets_eq (g : Arena) : (templateOf g).rotationTargets =
    Lib.Csr.ofRows ((List.range (stateCount g * 3)).map fun k =>
      (slotTargets g (poseOf g (k / 3)) (k % 3)).filterMap (keptIndex g)) := by
  have htab : (templateOf g).rotationTargets = compileRotationTargets g.width (ceilingOf g)
      (templateOf g).stateMasks (kickDeltas g.piece g.allow180 g.profile) := rfl
  rw [htab, compileRotationTargets, length_stateMasks, Lib.Csr.flatMap_range_map _ (by omega)]
  refine congrArg Lib.Csr.ofRows (map_congr_left fun k _ => ?_)
  exact rotationRow_eq g (k / 3) (Nat.mod_lt _ (by omega))

theorem rotationTargets_row {i : Nat} (hi : i < stateCount g) (hslot : slot < 3) :
    (templateOf g).rotationTargets.row (i * 3 + slot) =
      (slotTargets g (poseOf g i) slot).filterMap (keptIndex g) := by
  have hk : i * 3 + slot < stateCount g * 3 := by omega
  have hdiv : (i * 3 + slot) / 3 = i := by omega
  have hmod : (i * 3 + slot) % 3 = slot := by omega
  rw [rotationTargets_eq, Lib.Csr.row_ofRows (by simpa using hk), getElem_map,
    getElem_range, hdiv, hmod]

/-- A kept target is free exactly when its mask misses the board. -/
theorem any_keptIndex (hs : Small g) (s : State) :
    ((keptIndex g s).any fun j => (g.board &&& (templateOf g).mask j) = 0) =
      decide (g.Free (some (ceilingOf g)) s) := by
  rw [Bool.eq_iff_iff, Option.any_eq_true, decide_eq_true_eq]
  constructor
  · rintro ⟨j, hj, hmask⟩
    obtain ⟨hidx, hfit⟩ := (keptIndex_eq_some hs).mp hj
    obtain ⟨hpose, hjn⟩ := poseOf_of_stateIndex hidx
    have hunder := under_poseOf hjn
    have hclear := and_mask_eq_zero_iff hjn (by rw [hpose]; exact hfit)
    rw [hpose] at hunder hclear
    exact ⟨hunder, hfit, hclear.mp (by simpa using hmask)⟩
  · rintro ⟨hunder, hfit, hclear⟩
    obtain ⟨j, hidx⟩ := exists_index hunder hfit
    obtain ⟨hpose, hjn⟩ := poseOf_of_stateIndex hidx
    have hiff := and_mask_eq_zero_iff hjn (by rw [hpose]; exact hfit)
    rw [hpose] at hiff
    exact ⟨j, (keptIndex_eq_some hs).mpr ⟨hidx, hfit⟩, by simpa using hiff.mpr hclear⟩

/-- **The compiled rotation is the game's rotation**: dropping the kicks that lead outside before
    looking for the first free one finds the same kick as looking through all of them. -/
theorem firstSuccessfulKick_eq (hs : Small g) {i : Nat} (hi : i < stateCount g)
    (hslot : slot < 3) : firstSuccessfulKick (templateOf g) g.board i slot =
      ((slotTargets g (poseOf g i) slot).find?
        fun t => g.Free (some (ceilingOf g)) t).bind (keptIndex g) := by
  rw [firstSuccessfulKick, rotationTargets_row hi hslot, find?_filterMap]
  simp only [any_keptIndex hs]

end Clearra.Proof.Executor
