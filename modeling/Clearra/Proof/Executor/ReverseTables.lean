import Clearra.Proof.Executor.ReachTables

/-!
# The reversed tables

A translation is injective per slot, so its reverse is a table of the same shape; a rotation is
not, so its reverse is a scattered list per target, and each entry remembers how many kicks of its
list come before it. First success is a property of the board and not of the table: an entry leads
back along a move of the game only if every one of those earlier kicks is blocked. That is where
the reversed search could go wrong, and `exists_reverseRotation_iff` is the statement that it does
not.
-/

namespace Clearra.Proof.Executor

open Clearra.Executor Lib ReachabilityTemplate List
open Clearra.Executor.Arena
open Clearra.Rules

/-! ## Reversed translations -/

theorem length_recordReverseTranslations (reverse : List (Fin 3 → Nat)) (source : Nat)
    (targets : Fin 3 → Nat) :
    (recordReverseTranslations reverse source targets).length = reverse.length := by
  unfold recordReverseTranslations
  split
  · rfl
  · rename_i source' _
    generalize List.finRange 3 = slots
    induction slots generalizing reverse with
    | nil => rfl
    | cons s rest ih =>
      rw [foldl_cons, ih]
      split
      · exact length_modify ..
      · rfl

/-- One slot's entry overwrites that slot of the row it leads to. -/
theorem getD_modify_update {reverse : List (Fin 3 → Nat)} {source t : Nat} {targets : Fin 3 → Nat}
    (ht : t ≠ invalidStateIndex) (hlt : t < reverse.length) (s slot : Fin 3) :
    (if targets s ≠ invalidStateIndex then
        reverse.modify (targets s) fun row => Function.update row s source
      else reverse).getD t (fun _ => invalidStateIndex) slot =
      if s = slot ∧ targets slot = t then source
      else reverse.getD t (fun _ => invalidStateIndex) slot := by
  rw [getD_eq_getElem?_getD, getD_eq_getElem?_getD, getElem?_eq_getElem hlt]
  split
  · rw [getElem?_modify, getElem?_eq_getElem hlt]
    simp only [Option.map_eq_map, Option.map_some, Option.getD_some]
    grind [Function.update_apply]
  · grind

theorem recordReverseTranslations_getD {reverse : List (Fin 3 → Nat)} {source t : Nat}
    {targets : Fin 3 → Nat} (hsource : source ≤ 65535) (ht : t ≠ invalidStateIndex)
    (hlt : t < reverse.length) (slot : Fin 3) :
    (recordReverseTranslations reverse source targets).getD t (fun _ => invalidStateIndex) slot =
      if targets slot = t then source else reverse.getD t (fun _ => invalidStateIndex) slot := by
  have hu16 : u16TryFrom source = some source := if_pos hsource
  -- over any slots, only those that lead to `t` overwrite
  have hfold : ∀ slots : List (Fin 3), ((slots.foldl (fun reverse slot =>
      if targets slot ≠ invalidStateIndex then
        reverse.modify (targets slot) fun row => Function.update row slot source
      else reverse) reverse).getD t (fun _ => invalidStateIndex) slot =
        if slot ∈ slots ∧ targets slot = t then source
        else reverse.getD t (fun _ => invalidStateIndex) slot) := by
    intro slots
    induction slots generalizing reverse with
    | nil => simp
    | cons s rest ih =>
      rw [foldl_cons, ih (by split <;> simpa using hlt), getD_modify_update ht hlt]
      grind
  rw [recordReverseTranslations, hu16]
  simpa using hfold (List.finRange 3)

/-- No two sources move to one place in the same direction. -/
def SlotInjective (forward : List (Fin 3 → Nat)) : Prop :=
  ∀ (s s' : Nat) (row row' : Fin 3 → Nat) (slot : Fin 3), forward[s]? = some row →
    forward[s']? = some row' → row slot = row' slot → row slot ≠ invalidStateIndex → s = s'

/-- The reversed table read back, for a forward table that is injective per slot. The induction is
    on how many sources have been entered. -/
theorem foldl_recordReverse_getD {forward : List (Fin 3 → Nat)} (hlen : forward.length ≤ 65535)
    (hinj : SlotInjective forward) :
    ∀ (done rest : List (Fin 3 → Nat)), done ++ rest = forward →
      let reverse := done.zipIdx.foldl (fun reverse p => recordReverseTranslations reverse p.2 p.1)
        (List.replicate forward.length fun _ => invalidStateIndex)
      reverse.length = forward.length ∧
        ∀ t, t < forward.length → ∀ slot s, s ≠ invalidStateIndex →
          (reverse.getD t (fun _ => invalidStateIndex) slot = s ↔
            ∃ row, done[s]? = some row ∧ row slot = t) := by
  intro done
  induction done using List.reverseRecOn with
  | nil =>
    intro rest _
    refine ⟨by simp, fun t ht slot s hs => ?_⟩
    rw [zipIdx_nil, foldl_nil, getD_eq_getElem?_getD, getElem?_replicate_of_lt ht]
    exact ⟨fun h => absurd h.symm hs, fun ⟨row, h, _⟩ => absurd h (by simp)⟩
  | append_singleton done row ih =>
    intro rest hsplit
    obtain ⟨ihlen, ihentry⟩ := ih (row :: rest) (by rw [← hsplit]; simp)
    have hrow : forward[done.length]? = some row := by rw [← hsplit]; simp
    have hbound : done.length < forward.length := (List.getElem?_eq_some_iff.mp hrow).1
    intro reverse
    have hrev : reverse = recordReverseTranslations
        (done.zipIdx.foldl (fun reverse p => recordReverseTranslations reverse p.2 p.1)
          (List.replicate forward.length fun _ => invalidStateIndex)) done.length row := by
      simp only [reverse, zipIdx_append, foldl_append, zipIdx_cons, zipIdx_nil,
        foldl_cons, foldl_nil, Nat.zero_add]
    refine ⟨by rw [hrev, length_recordReverseTranslations, ihlen], fun t ht slot s hs => ?_⟩
    have htne : t ≠ invalidStateIndex := by unfold invalidStateIndex; omega
    rw [hrev, recordReverseTranslations_getD (by omega) htne (by rw [ihlen]; exact ht)]
    by_cases hslot : row slot = t
    · rw [if_pos hslot]
      constructor
      · rintro rfl
        exact ⟨row, by simp, hslot⟩
      · rintro ⟨row', hrow', hslot'⟩
        have hfwd : forward[s]? = some row' := by
          rw [← hsplit]
          exact (getElem?_append_left (List.getElem?_eq_some_iff.mp hrow').1).trans hrow'
        exact hinj _ _ row row' slot hrow hfwd (hslot.trans hslot'.symm) (hslot ▸ htne)
    · rw [if_neg hslot, ihentry t ht slot s hs]
      grind

theorem translationCandidates_injective (slot : Fin 3) :
    Function.Injective fun s => translationCandidates s slot := by
  rintro ⟨r, x, y⟩ ⟨r', x', y'⟩ h
  fin_cases slot
  · simp only [translationCandidates, State.mk.injEq] at h ⊢
    exact ⟨h.1, h.2.1, by omega⟩
  · simp only [translationCandidates, State.mk.injEq] at h ⊢
    exact ⟨h.1, by omega, h.2.2⟩
  · simp only [translationCandidates, State.mk.injEq] at h ⊢
    exact ⟨h.1, by omega, h.2.2⟩

theorem length_translationTargets (g : Arena) :
    (templateOf g).translationTargets.length = stateCount g := by
  have htab : (templateOf g).translationTargets =
      compileTranslationTargets g.width (ceilingOf g) (templateOf g).stateMasks := rfl
  rw [htab, compileTranslationTargets, length_map, length_range, length_stateMasks]

variable {g : Arena} {i j : Nat}

/-- Entry `slot` of the reversed row of `j`: the pose that moves there. -/
theorem reverseTranslationSources_eq_iff (hs : Small g) (hi : i ≠ invalidStateIndex)
    (hj : j < stateCount g) (slot : Fin 3) :
    (templateOf g).reverseTranslationSources.getD j (fun _ => invalidStateIndex) slot = i ↔
      i < stateCount g ∧
        (templateOf g).translationTargets.getD i (fun _ => invalidStateIndex) slot = j := by
  have hn := length_translationTargets g
  have hget : ∀ s row, (templateOf g).translationTargets[s]? = some row → s < stateCount g ∧
        (templateOf g).translationTargets.getD s (fun _ => invalidStateIndex) = row := by
    intro s row h
    refine ⟨hn ▸ (List.getElem?_eq_some_iff.mp h).1, ?_⟩
    rw [getD_eq_getElem?_getD, h]
    rfl
  have hinj : SlotInjective (templateOf g).translationTargets := by
    intro s s' row row' slot h h' heq hne
    obtain ⟨hs1, rfl⟩ := hget s row h
    obtain ⟨hs2, rfl⟩ := hget s' row' h'
    have h1 := ((translationTargets_eq_iff hs hs1 hne slot).mp rfl).1
    have h2 := ((translationTargets_eq_iff hs hs2 hne slot).mp heq.symm).1
    have hposes := (poseOf_of_stateIndex h1).1.symm.trans (poseOf_of_stateIndex h2).1
    exact poseOf_injective hs1 hs2 (translationCandidates_injective slot hposes)
  have hrev := (foldl_recordReverse_getD (by rw [hn]; exact hs.states) hinj
    (templateOf g).translationTargets [] (append_nil _)).2 j (by rw [hn]; exact hj) slot i hi
  have htab : (templateOf g).reverseTranslationSources =
      compileReverseTranslationSources (templateOf g).translationTargets := rfl
  rw [htab, compileReverseTranslationSources, hrev]
  constructor
  · rintro ⟨row, hrow, hslot⟩
    obtain ⟨hlt, hd⟩ := hget i row hrow
    exact ⟨hlt, by rw [hd]; exact hslot⟩
  · rintro ⟨hlt, hd⟩
    have hi' : i < (templateOf g).translationTargets.length := by rw [hn]; exact hlt
    refine ⟨_, getElem?_eq_getElem hi', ?_⟩
    rw [getD_eq_getElem?_getD, getElem?_eq_getElem hi'] at hd
    exact hd

/-! ## Reversed rotations -/

theorem length_slotTargets_le (hs : Small g) (s : State) (slot : Nat) :
    (slotTargets g s slot).length ≤ 256 := by
  unfold slotTargets
  cases (rotationsFrom s.rotation)[slot]? with
  | none => simp
  | some dst =>
    dsimp only
    split
    · simp
    · rw [kickTargets, length_map]
      cases hseq : g.profile.sequenceFor ⟨g.piece, s.rotation, dst⟩ with
      | none => simp
      | some offsets => exact hs.kicks _ _ _ hseq

/-- One row's entries, nothing dropped. -/
theorem reverseRotationEntries_eq (hs : Small g) {k : Nat} (hk : k < stateCount g * 3) :
    reverseRotationEntries (templateOf g).rotationTargets k =
      ((templateOf g).rotationTargets.row k).zipIdx.map
        fun p => (p.1, ⟨k / 3, k % 3, p.2⟩) := by
  have hstates := hs.states
  have hu16 : u16TryFrom (k / 3) = some (k / 3) := if_pos (by omega)
  have hrow := rotationTargets_row (show k / 3 < stateCount g by omega)
    (Nat.mod_lt k (show 0 < 3 by omega))
  rw [Nat.div_add_mod'] at hrow
  rw [reverseRotationEntries, hu16, ← filterMap_eq_map]
  refine filterMap_congr fun p hp => ?_
  -- the position of a kept kick is below the length of its kick list
  have hlt : p.2 < ((templateOf g).rotationTargets.row k).length :=
    (List.getElem?_eq_some_iff.mp (mem_zipIdx_iff_getElem?.mp hp)).1
  have hle : ((templateOf g).rotationTargets.row k).length ≤ 256 := by
    rw [hrow]
    exact (length_filterMap_le _ _).trans (length_slotTargets_le hs _ _)
  have hu8 : u8TryFrom p.2 = some p.2 := if_pos (by omega)
  simp [hu8]

theorem rotationTargets_lt (hs : Small g) {i slot j : Nat} (hi : i < stateCount g)
    (hslot : slot < 3) (h : j ∈ (templateOf g).rotationTargets.row (i * 3 + slot)) :
    j < stateCount g := by
  rw [rotationTargets_row hi hslot, mem_filterMap] at h
  obtain ⟨s, -, hkept⟩ := h
  exact (poseOf_of_stateIndex ((keptIndex_eq_some hs).mp hkept).1).2

theorem flatMap_rotationTargets_row (g : Arena) :
    (List.range (stateCount g * 3)).flatMap (templateOf g).rotationTargets.row =
      (templateOf g).rotationTargets.values := by
  have h := Csr.flatMap_row_ofRows ((List.range (stateCount g * 3)).map fun k =>
    (slotTargets g (poseOf g (k / 3)) (k % 3)).filterMap (keptIndex g))
  rw [length_map, length_range, ← rotationTargets_eq] at h
  exact h

/-- What the reversed table holds for one target: every place where it occurs in a kick row. -/
theorem mem_reverseRotationSources (hs : Small g) {j : Nat} (hj : j < stateCount g)
    {e : ReverseRotationSource} : e ∈ (templateOf g).reverseRotationSources.row j ↔
      e.source < stateCount g ∧ e.slot < 3 ∧
        ((templateOf g).rotationTargets.row (e.source * 3 + e.slot))[e.priorTargetCount]? =
          some j := by
  have htab : (templateOf g).reverseRotationSources =
      Csr.scatter (stateCount g) (templateOf g).rotationTargets.values
        ((List.range (stateCount g * 3)).flatMap
          (reverseRotationEntries (templateOf g).rotationTargets)) ⟨0, 0, 0⟩ := by
    rw [← length_stateMasks g]
    rfl
  -- the scattered keys are the counted ones
  have hkeys : ((List.range (stateCount g * 3)).flatMap
      (reverseRotationEntries (templateOf g).rotationTargets)).map Prod.fst =
        (templateOf g).rotationTargets.values := by
    rw [map_flatMap, ← flatMap_rotationTargets_row, flatMap_def, flatMap_def]
    refine congrArg List.flatten (map_congr_left fun k hk => ?_)
    rw [reverseRotationEntries_eq hs (mem_range.mp hk), map_map]
    exact zipIdx_map_fst 0 _
  have hbound : ∀ k ∈ (templateOf g).rotationTargets.values, k < stateCount g := by
    intro k hk
    rw [← flatMap_rotationTargets_row, mem_flatMap] at hk
    obtain ⟨r, hr, hk⟩ := hk
    rw [mem_range] at hr
    rw [← Nat.div_add_mod' r 3] at hk
    exact rotationTargets_lt hs (by omega) (Nat.mod_lt _ (by omega)) hk
  rw [htab, Csr.row_scatter hkeys hbound hj, Csr.mem_valuesAt, mem_flatMap]
  constructor
  · rintro ⟨k, hk, hmem⟩
    rw [mem_range] at hk
    rw [reverseRotationEntries_eq hs hk, mem_map] at hmem
    obtain ⟨⟨target, prior⟩, hp, heq⟩ := hmem
    rw [Prod.mk.injEq] at heq
    obtain ⟨rfl, rfl⟩ := heq
    rw [mem_zipIdx_iff_getElem?] at hp
    refine ⟨show k / 3 < _ by omega, Nat.mod_lt _ (by omega), ?_⟩
    rw [Nat.div_add_mod']
    exact hp
  · rintro ⟨hsrc, hslot, hget⟩
    have hk : e.source * 3 + e.slot < stateCount g * 3 := by omega
    refine ⟨e.source * 3 + e.slot, mem_range.mpr hk, ?_⟩
    rw [reverseRotationEntries_eq hs hk, mem_map]
    refine ⟨(j, e.priorTargetCount), mem_zipIdx_iff_getElem?.mpr hget, ?_⟩
    have hdiv : (e.source * 3 + e.slot) / 3 = e.source := by omega
    have hmod : (e.source * 3 + e.slot) % 3 = e.slot := by omega
    rw [hdiv, hmod]

/-- The test of an entry looks at exactly the kicks in front of it. -/
theorem reverseRotationIsFirstSuccess_iff {e : ReverseRotationSource}
    (hsrc : e.source < stateCount g) (hslot : e.slot < 3) (hprior : e.priorTargetCount ≤
      ((templateOf g).rotationTargets.row (e.source * 3 + e.slot)).length) :
    reverseRotationIsFirstSuccess (templateOf g) g.board e = true ↔
      ∀ target ∈ ((templateOf g).rotationTargets.row (e.source * 3 + e.slot)).take
        e.priorTargetCount, (g.board &&& (templateOf g).mask target) ≠ 0 := by
  have hk : e.source * 3 + e.slot < ((List.range (stateCount g * 3)).map fun k =>
      (slotTargets g (poseOf g (k / 3)) (k % 3)).filterMap (keptIndex g)).length := by
    rw [length_map, length_range]
    omega
  rw [rotationTargets_eq, Csr.row_ofRows hk] at hprior ⊢
  rw [reverseRotationIsFirstSuccess, rotationTargets_eq]
  rw [Csr.slice_ofRows hk hprior, all_eq_true]
  simp only [decide_eq_true_eq]

/-- **A reversed rotation is a rotation.** The entries of `j` that pass the first-success test on
    this board are exactly the poses one of whose rotations takes the kick to `j`. -/
theorem exists_reverseRotation_iff (hs : Small g) (hj : j < stateCount g)
    (hfree : (g.board &&& (templateOf g).mask j) = 0) :
    (∃ e ∈ (templateOf g).reverseRotationSources.row j,
        reverseRotationIsFirstSuccess (templateOf g) g.board e = true ∧ e.source = i) ↔
      i < stateCount g ∧ ∃ slot, slot < 3 ∧
        firstSuccessfulKick (templateOf g) g.board i slot = some j := by
  constructor
  · rintro ⟨e, he, hfirst, rfl⟩
    obtain ⟨hsrc, hslot, hget⟩ := (mem_reverseRotationSources hs hj).mp he
    obtain ⟨hlt, hval⟩ := List.getElem?_eq_some_iff.mp hget
    rw [reverseRotationIsFirstSuccess_iff hsrc hslot hlt.le] at hfirst
    refine ⟨hsrc, e.slot, hslot, find?_eq_some_iff_getElem.mpr ⟨?_, _, hlt, hval, ?_⟩⟩
    · rw [decide_eq_true_eq]
      exact hfree
    · intro k hk
      rw [Bool.not_eq_true', decide_eq_false_iff_not]
      refine hfirst _ (mem_take_iff_getElem.mpr ⟨k, by omega, rfl⟩)
  · rintro ⟨hi, slot, hslot, hkick⟩
    obtain ⟨-, prior, hlt, hval, hbefore⟩ := find?_eq_some_iff_getElem.mp hkick
    refine ⟨⟨i, slot, prior⟩, ?_, ?_, rfl⟩
    · exact (mem_reverseRotationSources hs hj).mpr
        ⟨hi, hslot, List.getElem?_eq_some_iff.mpr ⟨hlt, hval⟩⟩
    · rw [reverseRotationIsFirstSuccess_iff hi hslot hlt.le]
      intro target htarget
      obtain ⟨k, hk, rfl⟩ := mem_take_iff_getElem.mp htarget
      have hne := hbefore k (lt_of_lt_of_le hk (Nat.min_le_left _ _))
      rw [Bool.not_eq_true', decide_eq_false_iff_not] at hne
      exact hne

/-! ## The sky -/

theorem mem_skySeeds (hs : Small g) {i : Nat} : i ∈ (templateOf g).skySeeds ↔
    i < stateCount g ∧ g.Sky (some (ceilingOf g)) (poseOf g i) := by
  have htab : (templateOf g).skySeeds =
      compileSkySeeds g.width g.height (ceilingOf g) (templateOf g).stateMasks := rfl
  rw [htab, compileSkySeeds, mem_filterMap, length_stateMasks]
  constructor
  · rintro ⟨source, hsource, hkeep⟩
    rw [mem_range] at hsource
    split at hkeep
    · rename_i hsky
      have hu16 : u16TryFrom source = some source := if_pos (by have := hs.states; omega)
      rw [hu16, Option.some.injEq] at hkeep
      subst hkeep
      exact ⟨hsource, under_poseOf hsource, (mask_ne_invalid_iff hsource).mp hsky.2, hsky.1⟩
    · simp at hkeep
  · rintro ⟨hi, -, hfit, hheight⟩
    refine ⟨i, mem_range.mpr hi, ?_⟩
    rw [if_pos ⟨hheight, (mask_ne_invalid_iff hi).mpr hfit⟩]
    exact if_pos (by have := hs.states; omega)

theorem getD_compileSeedWords {n : Nat} : ∀ (seeds : List Nat), (∀ s ∈ seeds, s < n) → ∀ i, i < n →
    (((compileSeedWords n seeds).getD (i / 64) 0).getLsbD (i % 64) = true ↔ i ∈ seeds) := by
  intro seeds
  have hlen : ∀ seeds : List Nat, (compileSeedWords n seeds).length = (n + 63) / 64 := by
    intro seeds
    induction seeds using List.reverseRecOn with
    | nil => simp [compileSeedWords]
    | append_singleton seeds s ih =>
      rw [compileSeedWords, foldl_append] at *
      simpa using ih
  induction seeds using List.reverseRecOn with
  | nil =>
    intro _ i hi
    rw [compileSeedWords, foldl_nil, getD_eq_getElem?_getD, getElem?_replicate_of_lt (by omega)]
    simp
  | append_singleton seeds s ih =>
    intro hbound i hi
    have hs : s < n := hbound s (by simp)
    have ih := ih (fun s' hs' => hbound s' (by simp [hs'])) i hi
    have hword : i / 64 < (compileSeedWords n seeds).length := by rw [hlen]; omega
    have hstep : compileSeedWords n (seeds ++ [s]) =
        (compileSeedWords n seeds).modify (s / 64) (· ||| bit (s % 64)) := by
      simp [compileSeedWords]
    rw [getD_eq_getElem _ _ hword] at ih
    rw [hstep, getD_eq_getElem?_getD, getElem?_modify, getElem?_eq_getElem hword,
      mem_append, mem_singleton, ← ih]
    by_cases hw : s / 64 = i / 64
    · simp only [hw, if_true, Option.map_eq_map, Option.map_some, Option.getD_some,
        BitVec.getLsbD_or, Bool.or_eq_true, bit, getLsbD_one_shiftLeft, decide_eq_true_eq]
      have : (i % 64 = s % 64 ∧ i % 64 < 64) ↔ i = s := by omega
      rw [this]
    · have : ¬i = s := by rintro rfl; exact hw rfl
      simp [hw, this]

theorem isSkySeed_iff (hs : Small g) {i : Nat} (hi : i < stateCount g) :
    (templateOf g).isSkySeed i = true ↔ g.Sky (some (ceilingOf g)) (poseOf g i) := by
  have htab : (templateOf g).skySeedWords =
      compileSeedWords (stateCount g) (templateOf g).skySeeds := by
    rw [← length_stateMasks g]
    rfl
  have hwords := getD_compileSeedWords (templateOf g).skySeeds
    (fun s hs' => ((mem_skySeeds hs).mp hs').1) i hi
  rw [isSkySeed, decide_eq_true_eq, htab, bit,
    show (0 : Board) = 0#64 from rfl, and_one_shiftLeft_ne_zero_iff]
  rw [show (0 : Board) = 0#64 from rfl] at hwords
  rw [hwords, mem_skySeeds hs]
  exact ⟨fun h => h.2, fun h => ⟨hi, h⟩⟩

/-! ## Adjacency -/

/-- What the forward search pushes from `i`, in order. -/
def forwardSucc (t : ReachabilityTemplate) (board : Board) (i : Nat) : List Nat :=
  (((translationRow t.translationTargets i).filter
      (· ≠ invalidStateIndex)) ++
    (List.range (if t.allow180 then 3 else 2)).filterMap (firstSuccessfulKick t board i)).filter
    (placeable t board)

/-- What the reverse search pushes from `j`, in order. -/
def reverseSucc (t : ReachabilityTemplate) (board : Board) (j : Nat) : List Nat :=
  (((translationRow t.reverseTranslationSources j).filter
      (· ≠ invalidStateIndex)) ++
    ((t.reverseRotationSources.row j).filter (reverseRotationIsFirstSuccess t board)).map
      ReverseRotationSource.source).filter
    (placeable t board)

theorem mem_translationRow {table : List (Fin 3 → Nat)} :
    j ∈ translationRow table i ↔
      ∃ slot, table.getD i (fun _ => invalidStateIndex) slot = j := by
  rw [translationRow, mem_map]
  exact ⟨fun ⟨slot, _, h⟩ => ⟨slot, h⟩, fun ⟨slot, h⟩ => ⟨slot, mem_finRange _, h⟩⟩

/-- The slots a search tries are the rotations the arena offers. -/
theorem mem_rotationChoices {s : State} {dst : RotationState} :
    dst ∈ g.rotationChoices s ↔
      ∃ slot, slot < (if g.allow180 then 3 else 2) ∧ (rotationsFrom s.rotation)[slot]? = some dst := by
  unfold rotationChoices
  cases hallow : g.allow180 with
  | true =>
    simp only [if_true, mem_iff_getElem?]
    exact ⟨fun ⟨k, hk⟩ => ⟨k, (List.getElem?_eq_some_iff.mp hk).1, hk⟩, fun ⟨k, _, hk⟩ => ⟨k, hk⟩⟩
  | false =>
    simp only [Bool.false_eq_true, if_false, mem_cons, not_mem_nil, or_false]
    constructor
    · rintro (rfl | rfl)
      · exact ⟨0, by omega, rfl⟩
      · exact ⟨1, by omega, rfl⟩
    · rintro ⟨slot, hslot, hdst⟩
      interval_cases slot
      · exact .inl (Option.some.inj hdst).symm
      · exact .inr (Option.some.inj hdst).symm

/-- A forbidden half turn has an empty row, so trying its slot finds nothing. -/
theorem firstSuccessfulKick_eq_some (hs : Small g) {i slot j : Nat} (hi : i < stateCount g)
    (hslot : slot < 3) :
    firstSuccessfulKick (templateOf g) g.board i slot = some j ↔
      slot < (if g.allow180 then 3 else 2) ∧ ∃ dst t,
        (rotationsFrom (poseOf g i).rotation)[slot]? = some dst ∧
        (g.kickTargets (poseOf g i) dst).find? (fun t => g.Free (some (ceilingOf g)) t) = some t ∧
        stateIndex g.width (ceilingOf g) t = some j := by
  rw [firstSuccessfulKick_eq hs hi hslot, Option.bind_eq_some_iff]
  have hdst := getElem?_eq_getElem
    (show slot < (rotationsFrom (poseOf g i).rotation).length from hslot)
  unfold slotTargets
  rw [hdst]
  dsimp only
  by_cases h180 : slot = 2 ∧ g.allow180 = false
  · rw [if_pos h180]
    refine ⟨fun ⟨t, ht, _⟩ => absurd ht (by simp), fun ⟨hlt, _⟩ => ?_⟩
    rw [h180.1, h180.2] at hlt
    simp at hlt
  · rw [if_neg h180]
    have hlt : slot < (if g.allow180 then 3 else 2) := by
      cases hallow : g.allow180 with
      | true => simpa using hslot
      | false =>
        have hne : slot ≠ 2 := fun h => h180 ⟨h, hallow⟩
        simp only [Bool.false_eq_true, if_false]
        omega
    constructor
    · rintro ⟨t, ht, hkept⟩
      exact ⟨hlt, _, t, rfl, ht, ((keptIndex_eq_some hs).mp hkept).1⟩
    · rintro ⟨-, dst, t, hd, ht, hidx⟩
      rw [Option.some.injEq] at hd
      subst hd
      have hfree : g.Free (some (ceilingOf g)) t := by simpa using find?_some ht
      exact ⟨t, ht, (keptIndex_eq_some hs).mpr ⟨hidx, hfree.2.1⟩⟩

/-- **The forward tables are the moves of the game.** -/
theorem mem_forwardSucc (hs : Small g) (hi : i < stateCount g) :
    j ∈ forwardSucc (templateOf g) g.board i ↔
      j < stateCount g ∧ g.Move (some (ceilingOf g)) (poseOf g i) (poseOf g j) := by
  have hstates := hs.states
  rw [forwardSucc, mem_filter, placeable_iff_free, mem_append, mem_filter,
    mem_filterMap, mem_translationRow, decide_eq_true_eq]
  constructor
  · rintro ⟨⟨⟨slot, hslot⟩, hne⟩ | ⟨slot, hslot, hkick⟩, hj, hfree⟩
    · obtain ⟨hidx, -⟩ := (translationTargets_eq_iff hs hi hne slot).mp hslot
      refine ⟨hj, ?_⟩
      rw [(poseOf_of_stateIndex hidx).1] at hfree ⊢
      exact .translate _ slot hfree
    · rw [mem_range, templateOf_allow180] at hslot
      have hslot3 : slot < 3 := lt_of_lt_of_le hslot (by split <;> omega)
      obtain ⟨-, dst, t, hdst, hfind, hidx⟩ :=
        (firstSuccessfulKick_eq_some hs hi hslot3).mp hkick
      refine ⟨hj, ?_⟩
      rw [(poseOf_of_stateIndex hidx).1]
      exact .rotate _ dst (mem_rotationChoices.mpr ⟨slot, hslot, hdst⟩) t hfind
  · rintro ⟨hj, hmove⟩
    refine ⟨?_, hj, hmove.free⟩
    have hne : j ≠ invalidStateIndex := by unfold invalidStateIndex; omega
    generalize ht : poseOf g j = t at hmove
    cases hmove with
    | translate slot hfree =>
      refine .inl ⟨⟨slot, (translationTargets_eq_iff hs hi hne slot).mpr ?_⟩, hne⟩
      exact ⟨by rw [← ht]; exact stateIndex_poseOf hj, hfree.2.1⟩
    | rotate dst hdst t hfind =>
      obtain ⟨slot, hslot, hget⟩ := mem_rotationChoices.mp hdst
      refine .inr ⟨slot, by rw [mem_range, templateOf_allow180]; exact hslot, ?_⟩
      have hslot3 : slot < 3 := lt_of_lt_of_le hslot (by split <;> omega)
      rw [firstSuccessfulKick_eq_some hs hi hslot3]
      exact ⟨hslot, dst, t, hget, hfind, by rw [← ht]; exact stateIndex_poseOf hj⟩

/-- **The reversed tables are the moves read backward**, from a pose that is free. -/
theorem mem_reverseSucc (hs : Small g) (hj : j < stateCount g)
    (hfree : g.Free (some (ceilingOf g)) (poseOf g j)) :
    i ∈ reverseSucc (templateOf g) g.board j ↔
      placeable (templateOf g) g.board i = true ∧ j ∈ forwardSucc (templateOf g) g.board i := by
  have hstates := hs.states
  have hjne : j ≠ invalidStateIndex := by unfold invalidStateIndex; omega
  have hclear := (and_mask_eq_zero_iff hj hfree.2.1).mpr hfree.2.2
  have hrot := exists_reverseRotation_iff hs (i := i) hj hclear
  rw [reverseSucc, mem_filter, and_comm]
  refine and_congr_right fun hplace => ?_
  have hi : i < stateCount g := (placeable_iff_free.mp hplace).1
  have hine : i ≠ invalidStateIndex := by unfold invalidStateIndex; omega
  rw [forwardSucc, mem_filter, and_iff_left (placeable_iff_free.mpr ⟨hj, hfree⟩),
    mem_append, mem_append]
  refine or_congr ?_ ?_
  · rw [mem_filter, mem_filter, mem_translationRow, mem_translationRow,
      decide_eq_true_eq, decide_eq_true_eq, and_iff_left hine, and_iff_left hjne]
    refine exists_congr fun slot => ?_
    rw [reverseTranslationSources_eq_iff hs hine hj slot]
    exact and_iff_right hi
  · rw [mem_map, mem_filterMap]
    constructor
    · rintro ⟨e, he, rfl⟩
      rw [mem_filter] at he
      obtain ⟨-, slot, hslot, hkick⟩ := hrot.mp ⟨e, he.1, he.2, rfl⟩
      refine ⟨slot, mem_range.mpr ?_, hkick⟩
      exact ((firstSuccessfulKick_eq_some hs hi hslot).mp hkick).1
    · rintro ⟨slot, hslot, hkick⟩
      rw [mem_range, templateOf_allow180] at hslot
      have hslot3 : slot < 3 := lt_of_lt_of_le hslot (by split <;> omega)
      obtain ⟨e, he, hfirst, hsrc⟩ := hrot.mpr ⟨hi, slot, hslot3, hkick⟩
      exact ⟨e, mem_filter.mpr ⟨he, hfirst⟩, hsrc⟩

end Clearra.Proof.Executor
