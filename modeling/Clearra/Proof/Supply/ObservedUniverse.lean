import Clearra.Lib.Paths
import Clearra.Proof.Supply.ObservedExpansion

/-!
# The lazy and the eager observed universe coincide

The lazy space counts what the expansion lists (`visible`) and finds its members by rank. It refuses
lengths the expansion accepts, those shorter than the observed queue, and the expansion refuses a limit
of zero; apart from that the two agree.
-/

namespace Clearra.Proof.Supply

open Clearra.Supply Lib ObservedQueueExpansion List

/-! ## The lazy space -/

variable {observed : List PieceKind}

/-- The loop of `prefix_state`, along a walk of the places. -/
theorem prefixState_walk {pieces : List PieceKind} {s t : Place} (hs : s.Sound)
    (hwalk : s.walk pieces = some t) :
    pieces.foldlM (fun (state : Nat × UsedMask) piece => do
      let (offset, usedMask) ← normalizedState state.1 state.2
      refuseIf (usedMask &&& pieceBit piece ≠ 0)
        ObservedStandard7BagSequenceSpaceError.incompatibleBoundary
      pure (offset + 1, usedMask ||| pieceBit piece)) (s.offset, s.used) =
      .ok (t.offset, t.used) := by
  induction pieces generalizing s with
  | nil =>
    rw [Option.some.inj hwalk]
    rfl
  | cons piece pieces ih =>
    rw [Place.walk, foldlM_cons, Option.bind_eq_bind, Option.bind_eq_some_iff] at hwalk
    obtain ⟨next, hnext, hrest⟩ := hwalk
    have hsound := hs.step hnext
    rw [Place.step] at hnext
    split at hnext
    · simp at hnext
    · rename_i hfree
      cases hnext
      rw [foldlM_cons, normalizedState_eq hs, ok_bind]
      dsimp only
      rw [refuseIf_of_not (mt (and_pieceBit_ne_zero _ _).mp hfree), ok_bind]
      exact ih hsound hrest

theorem prefixState_eq {candidate : Nat × Place} (h : LeadsTo observed candidate) :
    prefixState observed candidate.1 = .ok (candidate.2.offset, candidate.2.used) :=
  prefixState_walk (s := ⟨candidate.1, 0⟩) (Place.sound_initial h.offset_lt.le) h.walk_eq

/-- The state kept for a candidate. -/
def candidateState (lacking : Nat) (candidate : Nat × Place) : CandidateState :=
  ⟨candidate.1, candidate.2.offset, candidate.2.used, (suffixes lacking candidate.2).length⟩

variable {lacking : Nat}

theorem addCandidate_eq {total : Nat} {candidates : List CandidateState}
    {candidate : Nat × Place} (h : LeadsTo observed candidate) :
    addCandidate observed lacking (candidates, total) candidate.1 =
      if total + (suffixes lacking candidate.2).length ≤ u128Max then
        .ok (candidates ++ [candidateState lacking candidate],
          total + (suffixes lacking candidate.2).length)
      else .error .patternCountOverflow := by
  have hpos := length_pos_of_ne_nil (suffixes_ne_nil (n := lacking) h.sound)
  rw [addCandidate, prefixState_eq h, ok_bind]
  dsimp only
  rw [countFromState_eq h.sound, fitting]
  by_cases hfits : (suffixes lacking candidate.2).length ≤ u128Max
  · rw [if_pos hfits, orRefuse, ok_bind, if_neg hpos.ne', checkedAddU128]
    split
    · rfl
    · rfl
  · rw [if_neg hfits, if_neg (by omega)]
    rfl

/-- The loop of `new`: all candidates, if their total fits. -/
theorem foldlM_addCandidate {found : List (Nat × Place)}
    (h : ∀ candidate ∈ found, LeadsTo observed candidate) {candidates : List CandidateState}
    {total : Nat} (htotal : total ≤ u128Max) :
    (found.map Prod.fst).foldlM (addCandidate observed lacking) (candidates, total) =
      if total + (found.map fun candidate => (suffixes lacking candidate.2).length).sum ≤ u128Max then
        .ok (candidates ++ found.map (candidateState lacking),
          total + (found.map fun candidate => (suffixes lacking candidate.2).length).sum)
      else .error .patternCountOverflow := by
  induction found generalizing candidates total with
  | nil => simp [htotal, pure, Except.pure]
  | cons candidate found ih =>
    obtain ⟨hhead, htail⟩ := forall_mem_cons.mp h
    rw [map_cons, foldlM_cons, addCandidate_eq hhead, map_cons, sum_cons, ← Nat.add_assoc, map_cons]
    by_cases hfits : total + (suffixes lacking candidate.2).length ≤ u128Max
    · rw [if_pos hfits, ok_bind, ih htail hfits, append_assoc, singleton_append]
    · rw [if_neg hfits, if_neg (by omega)]
      rfl

/-- The space of what is visible, if its size is a `usize`. -/
def spaceOf (observed : List PieceKind) (lacking : Nat) : ObservedStandard7BagSequenceSpace :=
  ⟨observed, observed.length + lacking, (places observed).map (candidateState lacking),
    (visible observed lacking).length, (visible observed lacking).length⟩

theorem new_eq (h : places observed ≠ []) (lacking : Nat) :
    ObservedStandard7BagSequenceSpace.new observed (observed.length + lacking) =
      if (visible observed lacking).length ≤ usizeMax then .ok (spaceOf observed lacking)
      else .error .patternCountOverflow := by
  have hpos := visible_pos h lacking
  rw [ObservedStandard7BagSequenceSpace.new, refuseIf_of_not (by omega), ok_bind,
    analyzeObservedWindow_eq]
  dsimp only
  rw [refuseIf_of_not (fun hnil => h (map_eq_nil_iff.mp hnil)), ok_bind,
    Nat.add_sub_cancel_left, foldlM_addCandidate (fun _ => leadsTo_of_mem) (Nat.zero_le _), Nat.zero_add, ← length_visible]
  by_cases hfits : (visible observed lacking).length ≤ u128Max
  · rw [if_pos hfits, ok_bind, nil_append]
    dsimp only
    rw [refuseIf_of_not, ok_bind]
    · by_cases hcount : (visible observed lacking).length ≤ usizeMax
      · rw [refuseIf_of_not (by omega), if_pos hcount]
        rfl
      · rw [refuseIf, if_pos (by omega), if_neg hcount]
        rfl
    · rintro (hnone | hzero)
      · exact h (map_eq_nil_iff.mp (length_eq_zero_iff.mp hnone))
      · omega
  · rw [if_neg hfits, if_neg]
    · rfl
    · simp only [usizeMax]
      simp only [u128Max] at hfits
      omega

theorem new_incompatible (h : places observed = []) (lacking : Nat) :
    ObservedStandard7BagSequenceSpace.new observed (observed.length + lacking) =
      .error .incompatibleBoundary := by
  rw [ObservedStandard7BagSequenceSpace.new, refuseIf_of_not (by omega), ok_bind,
    analyzeObservedWindow_eq, h]
  rfl

/-! ## Unranking -/

/-- The queues that go on with one of these pieces. -/
abbrev branches (n : Nat) (s : Place) (pieces : List PieceKind) : List (List PieceKind) :=
  pieces.flatMap fun piece =>
    if s.has piece then [] else (suffixes n (s.draw piece)).map (piece :: ·)

section

variable {n : Nat} {s : Place} {piece : PieceKind} (pieces : List PieceKind)

theorem branches_cons_used (h : s.has piece = true) :
    branches n s (piece :: pieces) = branches n s pieces := by
  rw [branches, flatMap_cons, if_pos h, nil_append]

theorem branches_cons_free (h : s.has piece = false) : branches n s (piece :: pieces) =
    (suffixes n (s.draw piece)).map (piece :: ·) ++ branches n s pieces := by
  rw [branches, flatMap_cons, if_neg (by rw [h]; simp)]

end

variable {rank : Nat}

theorem selectBranch_eq {n : Nat} {s : Place} (hs : s.Sound) (hlt : s.offset < 7)
    {pieces : List PieceKind} (hrank : rank < (branches n s pieces).length)
    (hfits : (branches n s pieces).length ≤ u128Max) :
    ∃ piece rest, selectBranch n s.offset s.used pieces rank =
        .ok (piece, (s.draw piece).offset, (s.draw piece).used, rest) ∧
      s.has piece = false ∧ rest < (suffixes n (s.draw piece)).length ∧
      (suffixes n (s.draw piece)).length ≤ u128Max ∧
      (branches n s pieces)[rank]? = ((suffixes n (s.draw piece))[rest]?).map (piece :: ·) := by
  induction pieces generalizing rank with
  | nil => exact absurd hrank (Nat.not_lt_zero rank)
  | cons piece pieces ih =>
    rw [selectBranch]
    cases hhas : s.has piece with
    | true =>
      rw [branches_cons_used pieces hhas] at hrank hfits ⊢
      rw [if_pos ((and_pieceBit_ne_zero _ _).mpr hhas)]
      exact ih hrank hfits
    | false =>
      have hcount := countFromState_eq (n := n) (hs.draw hlt hhas)
      rw [branches_cons_free pieces hhas] at hrank hfits ⊢
      rw [length_append, length_map] at hrank hfits
      rw [fitting, if_pos (by omega)] at hcount
      rw [if_neg (mt (and_pieceBit_ne_zero _ _).mp (by rw [← Place.has, hhas]; simp))]
      change ∃ piece' rest, (orRefuse _ (countFromState n (s.draw piece).offset
        (s.draw piece).used) >>= _) = _ ∧ _
      rw [hcount, orRefuse, ok_bind, getElem?_append, length_map]
      by_cases hhere : rank < (suffixes n (s.draw piece)).length
      · rw [if_pos hhere, if_pos hhere]
        exact ⟨piece, rank, rfl, hhas, hhere, by omega, getElem?_map⟩
      · rw [if_neg hhere, if_neg hhere]
        exact ih (by omega) (by omega)

theorem writeSuffix_eq {n : Nat} {s : Place} (hs : s.Sound)
    (hrank : rank < (suffixes n s).length) (hfits : (suffixes n s).length ≤ u128Max) :
    ∃ suffix, writeSuffix n s.offset s.used rank = .ok suffix ∧
      (suffixes n s)[rank]? = some suffix := by
  induction n generalizing s rank with
  | zero =>
    obtain rfl : rank = 0 := Nat.lt_one_iff.mp hrank
    exact ⟨[], rfl, rfl⟩
  | succ n ih =>
    obtain ⟨piece, rest, hselect, hfree, hrest, hfits', hget⟩ :=
      selectBranch_eq hs.turn.1 hs.turn.2 hrank hfits
    obtain ⟨suffix, hwrite, hsuffix⟩ := ih (hs.turn.1.draw hs.turn.2 hfree) hrest hfits'
    refine ⟨piece :: suffix, ?_, ?_⟩
    · rw [writeSuffix, normalizedState_eq hs, ok_bind]
      dsimp only
      rw [hselect, ok_bind]
      dsimp only
      rw [hwrite]
      rfl
    · rw [suffixes]
      exact hget.trans (by rw [hsuffix, Option.map_some])

theorem selectCandidate_eq {found : List (Nat × Place)}
    (hrank : rank < (found.flatMap fun (offset, s) =>
      (suffixes lacking s).map fun suffix => (offset, observed ++ suffix)).length) :
    ∃ candidate ∈ found, ∃ rest,
      selectCandidate (found.map (candidateState lacking)) rank =
        .ok (candidateState lacking candidate, rest) ∧
      rest < (suffixes lacking candidate.2).length ∧ (found.flatMap fun (offset, s) =>
        (suffixes lacking s).map fun suffix => (offset, observed ++ suffix))[rank]? =
        ((suffixes lacking candidate.2)[rest]?).map fun suffix => (candidate.1, observed ++ suffix) := by
  induction found generalizing rank with
  | nil => exact absurd hrank (Nat.not_lt_zero rank)
  | cons candidate found ih =>
    rw [flatMap_cons, length_append, length_map] at hrank
    rw [map_cons, selectCandidate, getElem?_flatMap_cons]
    simp only [length_map]
    by_cases hhere : rank < (suffixes lacking candidate.2).length
    · rw [if_pos hhere]
      refine ⟨candidate, mem_cons_self, rank, ?_, hhere, ?_⟩
      · exact if_pos hhere
      · exact getElem?_map
    · rw [if_neg hhere]
      obtain ⟨chosen, hchosen, rest, hselect, hrest, hget⟩ :=
        @ih (rank - (suffixes lacking candidate.2).length) (by omega)
      refine ⟨chosen, mem_cons_of_mem _ hchosen, rest, ?_, hrest, hget⟩
      exact (if_neg hhere).trans hselect

theorem sequence_eq {index : Nat} (hindex : index < (visible observed lacking).length)
    (hfits : (visible observed lacking).length ≤ usizeMax) :
    ∃ queue, (spaceOf observed lacking).sequence index = .ok queue ∧
      ((visible observed lacking).map Prod.snd)[index]? = some queue := by
  obtain ⟨candidate, hcandidate, rest, hselect, hrest, hget⟩ := selectCandidate_eq hindex
  have hle : (suffixes lacking candidate.2).length ≤ (visible observed lacking).length := by
    rw [length_visible]
    exact single_le_sum (fun _ _ => Nat.zero_le _) _ (mem_map_of_mem hcandidate)
  have hfits' : (suffixes lacking candidate.2).length ≤ u128Max := by
    simp only [usizeMax] at hfits
    simp only [u128Max]
    omega
  obtain ⟨suffix, hwrite, hsuffix⟩ := writeSuffix_eq (leadsTo_of_mem hcandidate).sound hrest hfits'
  refine ⟨observed ++ suffix, ?_, ?_⟩
  · have hrange : ¬index ≥ (spaceOf observed lacking).patternCount := Nat.not_le.mpr hindex
    rw [ObservedStandard7BagSequenceSpace.sequence, refuseIf_of_not hrange, ok_bind]
    change (selectCandidate ((places observed).map (candidateState lacking)) index >>= _) = _
    rw [hselect, ok_bind]
    change (writeSuffix (observed.length + lacking - observed.length) candidate.2.offset
      candidate.2.used rest >>= _) = _
    rw [Nat.add_sub_cancel_left, hwrite]
    rfl
  · rw [getElem?_map]
    exact (congrArg (Option.map Prod.snd) hget).trans (by rw [hsuffix]; rfl)

/-! ## Both together -/

/-- The first sequences of a space, as many as the expansion has, are those of the expansion. -/
def ListsFirst (space : ObservedStandard7BagSequenceSpace) (expansion : ObservedQueueExpansion) :
    Prop :=
  ∀ i < expansion.queues.length, ∃ queue, space.sequence i = .ok queue ∧
    expansion.queues[i]? = some queue

/-- The lazy and the eager side agree on an observed queue and a length. -/
structure Coincide (observed : List PieceKind) (sequenceLen : Nat) : Prop where
  same_size : ∀ n limit, n ≤ limit → limit ≤ usizeMax →
    ((∃ space, ObservedStandard7BagSequenceSpace.new observed sequenceLen = .ok space ∧
        space.len = n) ↔
      ∃ expansion, expand observed sequenceLen limit = .ok expansion ∧
        expansion.queues.length = n ∧ expansion.truncated = false)
  same_sequences : ∀ space, ObservedStandard7BagSequenceSpace.new observed sequenceLen = .ok space →
    ∀ limit, space.len ≤ limit → limit ≤ usizeMax →
      ∃ expansion, expand observed sequenceLen limit = .ok expansion ∧
        expansion.queues.length = space.len ∧ ListsFirst space expansion
  truncated : ∀ space, ObservedStandard7BagSequenceSpace.new observed sequenceLen = .ok space →
    ∀ limit, 0 < limit → limit < space.len →
      ∃ expansion, expand observed sequenceLen limit = .ok expansion ∧
        expansion.truncated = true ∧ expansion.queues.length = limit ∧ ListsFirst space expansion

theorem listsFirst_of_take {limit : Nat} (hfits : (visible observed lacking).length ≤ usizeMax)
    {expansion : ObservedQueueExpansion}
    (h : expansion.queues = ((visible observed lacking).map Prod.snd).take limit) :
    ListsFirst (spaceOf observed lacking) expansion := by
  intro i hi
  rw [h, length_take, length_map] at hi
  obtain ⟨queue, hqueue, hget⟩ := sequence_eq (by omega : i < (visible observed lacking).length) hfits
  refine ⟨queue, hqueue, ?_⟩
  rw [h, getElem?_take_of_lt (by omega), hget]

theorem expand_incompatible (h : places observed = []) (minimumLen maxPatterns : Nat)
    (expansion : ObservedQueueExpansion) :
    expand observed minimumLen maxPatterns ≠ .ok expansion := by
  intro hok
  rw [expand, expandWithBagProfile, bind_eq_ok] at hok
  obtain ⟨_, -, hok⟩ := hok
  rw [analyzeObservedWindowWithProfile_eq, h] at hok
  obtain ⟨_, hrefuse, -⟩ := bind_eq_ok.mp hok
  exact refuseIf_eq_ok.mp hrefuse rfl

/-- For every length that is not too short for the observed queue. -/
theorem lazy_eq_eager {observed : List PieceKind} {sequenceLen : Nat}
    (h : observed.length ≤ sequenceLen) : Coincide observed sequenceLen := by
  obtain ⟨lacking, rfl⟩ := Nat.exists_eq_add_of_le h
  have hlacking : max (observed.length + lacking) observed.length - observed.length = lacking := by
    omega
  by_cases hplaces : places observed = []
  · have hnew := new_incompatible hplaces lacking
    have herror : ∀ space, ObservedStandard7BagSequenceSpace.new observed
        (observed.length + lacking) ≠ .ok space := by
      intro space hok
      exact absurd (hnew.symm.trans hok) (by simp)
    refine ⟨fun n limit _ _ => ⟨fun ⟨space, hok, _⟩ => absurd hok (herror space),
      fun ⟨expansion, hok, _⟩ => absurd hok (expand_incompatible hplaces _ _ expansion)⟩,
      fun space hok => absurd hok (herror space), fun space hok => absurd hok (herror space)⟩
  · have hpos := visible_pos hplaces lacking
    have hnew := new_eq hplaces lacking
    -- a space there is, is the one of what is visible
    have hspace : ∀ space, ObservedStandard7BagSequenceSpace.new observed
        (observed.length + lacking) = .ok space →
        (visible observed lacking).length ≤ usizeMax ∧ space = spaceOf observed lacking := by
      intro space hok
      rw [hnew] at hok
      split at hok
      · rename_i hfits
        exact ⟨hfits, (Except.ok.inj hok).symm⟩
      · simp at hok
    refine ⟨fun n limit hn hlimit => ⟨?_, ?_⟩, ?_, ?_⟩
    · rintro ⟨space, hok, rfl⟩
      obtain ⟨-, rfl⟩ := hspace space hok
      change (visible observed lacking).length ≤ limit at hn
      obtain ⟨expansion, hexpand, hqueues, htruncated⟩ :=
        expand_eq_ok hplaces (by omega) hlimit hlacking
      refine ⟨expansion, hexpand, ?_, ?_⟩
      · rw [hqueues, length_take, length_map, Nat.min_eq_right hn]
        rfl
      · rw [htruncated, decide_eq_false (Nat.not_lt.mpr hn)]
    · rintro ⟨expansion, hexpand, hcount, htruncated⟩
      have hlimitPos : 0 < limit := by
        by_contra hzero
        obtain rfl : limit = 0 := by omega
        exact absurd hexpand (by simp [expand, expandWithBagProfile, refuseIf, bind, Except.bind])
      obtain ⟨expansion', hexpand', hqueues, htruncated'⟩ :=
        expand_eq_ok hplaces hlimitPos hlimit hlacking
      cases hexpand.symm.trans hexpand'
      rw [htruncated, eq_comm, decide_eq_false_iff_not, Nat.not_lt] at htruncated'
      rw [hqueues, length_take, length_map, Nat.min_eq_right htruncated'] at hcount
      refine ⟨spaceOf observed lacking, ?_, hcount⟩
      rw [hnew, if_pos (htruncated'.trans hlimit)]
    · intro space hok limit hle hlimit
      obtain ⟨hfits, rfl⟩ := hspace space hok
      change (visible observed lacking).length ≤ limit at hle
      obtain ⟨expansion, hexpand, hqueues, -⟩ := expand_eq_ok hplaces (by omega) hlimit hlacking
      refine ⟨expansion, hexpand, ?_, listsFirst_of_take hfits hqueues⟩
      rw [hqueues, length_take, length_map, Nat.min_eq_right hle]
      rfl
    · intro space hok limit hlimitPos hlt
      obtain ⟨hfits, rfl⟩ := hspace space hok
      change limit < (visible observed lacking).length at hlt
      obtain ⟨expansion, hexpand, hqueues, htruncated⟩ :=
        expand_eq_ok hplaces hlimitPos (by omega) hlacking
      refine ⟨expansion, hexpand, ?_, ?_, listsFirst_of_take hfits hqueues⟩
      · rw [htruncated, decide_eq_true hlt]
      · rw [hqueues, length_take, length_map, Nat.min_eq_left hlt.le]

theorem lazy_eq_eager_pair : (ObservedStandard7BagSequenceSpace.new [.I, .O] 3).isOk = true ∧
    Coincide [.I, .O] 3 :=
  ⟨by decide +kernel, lazy_eq_eager (by decide)⟩

/-- A length shorter than the observed queue is refused by the lazy side only, and a limit of zero by
    the eager side only. -/
theorem refusals_differ :
    ObservedStandard7BagSequenceSpace.new [.I, .O] 1 = .error .sequenceTooShort ∧
    (∃ expansion, expand [.I, .O] 1 7 = .ok expansion ∧
      expansion.queues.length = 7 ∧ expansion.truncated = false) ∧
    (∃ space, ObservedStandard7BagSequenceSpace.new [] 0 = .ok space ∧ space.len = 7) ∧
    expand [] 0 0 = .error .zeroPatternLimit := by
  refine ⟨rfl, ?_, ⟨_, rfl, rfl⟩, rfl⟩
  have hplaces : places [.I, .O] ≠ [] := by decide +kernel
  have hvisible : (visible [.I, .O] 0).length = 7 := by decide +kernel
  have hlacking : max 1 [PieceKind.I, .O].length - [PieceKind.I, .O].length = 0 := rfl
  obtain ⟨expansion, hexpand, hqueues, htruncated⟩ :=
    expand_eq_ok hplaces (by decide : 0 < 7) (by decide) hlacking
  refine ⟨expansion, hexpand, ?_, ?_⟩
  · rw [hqueues, length_take, length_map, hvisible]
    rfl
  · rw [htruncated, hvisible]
    rfl

end Clearra.Proof.Supply
