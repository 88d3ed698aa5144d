import Clearra.Proof.Supply.ObservedPlaces
import Clearra.Proof.Supply.ObservedWeights

/-!
# What an expansion lists

For every offset at which the observed queue can start in a bag, the queues that go on from the place
it leads to (`visible`). Scanning for duplicates walks from place to place, so that the enumeration
collects this list up to its limit; and since from every place a queue goes on, the limit is reported
exactly when there is more.
-/

namespace Clearra.Proof.Supply

open Clearra.Supply Lib Function
open List hiding get

/-! ## Duplicates -/

theorem multiplicityFor_standard7 (piece : PieceKind) : BagProfile.standard7.multiplicityFor piece = 1 := by
  cases piece <;> rfl

theorem bagSize_standard7 : BagProfile.standard7.bagSize = 7 := rfl

theorem pieces_standard7 : BagProfile.standard7.pieces = PieceKind.standardTetrominoes := rfl

/-- A scan is at a place. -/
structure Scans (scan : DuplicateScan) (s : Place) : Prop where
  offset_eq : scan.offset = s.offset
  had : ∀ piece, s.has piece = true → ∃ index, scan.seen piece = some (index, 1)
  free : ∀ piece, s.has piece = false → scan.seen piece = none

theorem has_zero (offset : Nat) (piece : PieceKind) : Place.has ⟨offset, 0⟩ piece = false :=
  BitVec.getLsbD_zero

theorem scans_initial (offset index : Nat) : Scans ⟨offset, index, fun _ => none⟩ ⟨offset, 0⟩ :=
  ⟨rfl, fun piece h => absurd (h.symm.trans (has_zero offset piece)) (by simp), fun _ _ => rfl⟩

theorem has_draw (s : Place) (piece other : PieceKind) :
    (s.draw piece).has other = (s.has other || decide (other = piece)) :=
  getLsbD_or_pieceBit s.used piece other

variable {scan : DuplicateScan} {s : Place}

theorem Scans.turn (h : Scans scan s) (index : Nat) :
    Scans (if scan.offset = 7 then ⟨0, index, fun _ => none⟩ else scan) s.turn := by
  rw [Place.turn, h.offset_eq]
  split
  · exact scans_initial 0 index
  · exact h

theorem Scans.draw (h : Scans scan s) (piece : PieceKind) (index : Nat) :
    Scans { scan with
      offset := scan.offset + 1
      seen := Function.update scan.seen piece (some (index, 1)) } (s.draw piece) := by
  refine ⟨congrArg (· + 1) h.offset_eq, fun other hhas => ?_, fun other hfree => ?_⟩
  · by_cases hother : other = piece
    · exact ⟨index, hother ▸ update_self ..⟩
    · rw [has_draw, decide_eq_false hother, Bool.or_false] at hhas
      obtain ⟨first, hfirst⟩ := h.had other hhas
      exact ⟨first, (update_of_ne hother ..).trans hfirst⟩
  · rw [has_draw, Bool.or_eq_false_iff, decide_eq_false_iff_not] at hfree
    exact (update_of_ne hfree.2 ..).trans (h.free other hfree.1)

theorem duplicateLoop_isNone (h : Scans scan s) (initialOffset index : Nat)
    (pieces : List PieceKind) :
    (duplicateLoop .standard7 initialOffset index scan pieces).isNone = (s.walk pieces).isSome := by
  induction pieces generalizing scan s index with
  | nil => rfl
  | cons piece pieces ih =>
    have hturn := h.turn index
    rw [duplicateLoop, bagSize_standard7, multiplicityFor_standard7, if_neg Nat.one_ne_zero,
      Place.walk, foldlM_cons, Place.step]
    revert hturn
    generalize (if scan.offset = 7 then (⟨0, index, fun _ => none⟩ : DuplicateScan) else scan) = scan'
    intro hturn
    cases hhas : s.turn.has piece with
    | true =>
      obtain ⟨first, hfirst⟩ := hturn.had piece hhas
      rw [hfirst]
      rfl
    | false =>
      rw [hturn.free piece hhas]
      exact ih (hturn.draw piece index) (index + 1)

variable {offset : Nat}

theorem duplicateFor_isNone (h : offset < 7) (pieces : List PieceKind) :
    (duplicateForBoundaryOffsetWithProfile pieces .standard7 offset).isNone =
      (Place.walk ⟨offset, 0⟩ pieces).isSome := by
  rw [duplicateForBoundaryOffsetWithProfile, bagSize_standard7, if_neg (by omega)]
  exact duplicateLoop_isNone (scans_initial offset 0) offset 0 pieces

/-! ## What is visible -/

/-- The offsets the observed queue can start at, with the places it leads to. -/
def places (observed : List PieceKind) : List (Nat × Place) :=
  (List.range 7).filterMap fun offset => (Place.walk ⟨offset, 0⟩ observed).map (Prod.mk offset)

/-- What can be seen, with the offset it starts at. -/
def visible (observed : List PieceKind) (lacking : Nat) : List (Nat × List PieceKind) :=
  (places observed).flatMap fun (offset, s) =>
    (suffixes lacking s).map fun suffix => (offset, observed ++ suffix)

/-- A candidate that goes with a place. -/
structure LeadsTo (observed : List PieceKind) (candidate : Nat × Place) : Prop where
  offset_lt : candidate.1 < 7
  walk_eq : Place.walk ⟨candidate.1, 0⟩ observed = some candidate.2

variable {observed : List PieceKind} {candidate : Nat × Place}

theorem LeadsTo.sound (h : LeadsTo observed candidate) : candidate.2.Sound :=
  (Place.sound_initial h.offset_lt.le).walk h.walk_eq

theorem leadsTo_of_mem (h : candidate ∈ places observed) : LeadsTo observed candidate := by
  obtain ⟨offset, hoffset, hwalk⟩ := mem_filterMap.mp h
  obtain ⟨s, hs, rfl⟩ := Option.map_eq_some_iff.mp hwalk
  exact ⟨mem_range.mp hoffset, hs⟩

theorem filter_isSome {α β : Type} (f : α → Option β) (l : List α) :
    (l.filter fun a => (f a).isSome) = (l.filterMap fun a => (f a).map (Prod.mk a)).map Prod.fst := by
  induction l with
  | nil => rfl
  | cons a l ih =>
    rw [filter_cons, filterMap_cons, ih]
    cases f a <;> rfl

theorem analyzeObservedWindowWithProfile_eq (observed : List PieceKind) :
    analyzeObservedWindowWithProfile observed .standard7 = (places observed).map Prod.fst := by
  rw [places, ← filter_isSome, analyzeObservedWindowWithProfile, bagSize_standard7]
  refine filter_congr fun offset hoffset => ?_
  exact duplicateFor_isNone (mem_range.mp hoffset) observed

theorem analyzeObservedWindow_eq (observed : List PieceKind) :
    analyzeObservedWindow observed observedBagSize = (places observed).map Prod.fst :=
  analyzeObservedWindowWithProfile_eq observed

/-! ## Enumerating -/

/-- What is found with `patterns` already there and `more` to come. -/
def collect (maxPatterns : Nat) (patterns more : List (Nat × List PieceKind)) : Enumeration :=
  ⟨(patterns ++ more).take maxPatterns, decide (maxPatterns < (patterns ++ more).length)⟩

variable {maxPatterns : Nat} {patterns : List (Nat × List PieceKind)}

theorem collect_nil (h : patterns.length ≤ maxPatterns) :
    collect maxPatterns patterns [] = ⟨patterns, false⟩ := by
  rw [collect, append_nil, take_of_length_le h, decide_eq_false (by omega)]

theorem collect_full {patterns more : List (Nat × List PieceKind)}
    (hle : patterns.length ≤ maxPatterns) (hge : maxPatterns ≤ patterns.length) (hmore : more ≠ []) :
    collect maxPatterns patterns more = ⟨patterns, true⟩ := by
  have hpos := length_pos_of_ne_nil hmore
  rw [collect, take_append_of_le_length hge, take_of_length_le hle, decide_eq_true]
  rw [length_append]
  omega

/-- Going through sources one by one collects what they have together. -/
theorem foldUntil_collect {α : Type} {f : Enumeration → α → Enumeration}
    {more : α → List (Nat × List PieceKind)} {l : List α}
    (h : ∀ a ∈ l, ∀ patterns, patterns.length ≤ maxPatterns →
      f ⟨patterns, false⟩ a = collect maxPatterns patterns (more a))
    (hle : patterns.length ≤ maxPatterns) :
    foldUntil Enumeration.truncated f ⟨patterns, false⟩ l =
      collect maxPatterns patterns (l.flatMap more) := by
  induction l generalizing patterns with
  | nil => exact (collect_nil hle).symm
  | cons a l ih =>
    rw [foldUntil, h a mem_cons_self patterns hle, flatMap_cons]
    split
    · -- the limit is reached within `a`
      rename_i htruncated
      have hmore : maxPatterns < (patterns ++ more a).length := of_decide_eq_true htruncated
      rw [collect, collect, ← append_assoc, take_append_of_le_length hmore.le,
        decide_eq_true hmore, decide_eq_true]
      rw [length_append]
      omega
    · rename_i hrest
      have hfits : (patterns ++ more a).length ≤ maxPatterns :=
        Nat.le_of_not_lt fun hlt => hrest (decide_eq_true hlt)
      rw [collect, decide_eq_false (Nat.not_lt.mpr hfits), take_of_length_le hfits,
        ih (fun b hb => h b (mem_cons_of_mem a hb)) hfits, collect, collect, append_assoc]

theorem foldUntil_map {α β γ : Type} (stop : γ → Bool) (f : γ → β → γ) (g : α → β) (c : γ)
    (l : List α) : foldUntil stop f c (l.map g) = foldUntil stop (fun c a => f c (g a)) c l := by
  induction l generalizing c with
  | nil => rfl
  | cons a l ih => rw [map_cons, foldUntil, foldUntil, ih]

/-- From a prefix that leads to a place, its suffixes are collected. -/
theorem enumerateVisibleSuffixes_eq {offset maxPatterns : Nat} (hoffset : offset < 7)
    {lacking : Nat} {before : List PieceKind} (hwalk : Place.walk ⟨offset, 0⟩ before = some s)
    (hle : patterns.length ≤ maxPatterns) :
    enumerateVisibleSuffixes .standard7 offset maxPatterns lacking before ⟨patterns, false⟩ =
      collect maxPatterns patterns
        ((suffixes lacking s).map fun suffix => (offset, before ++ suffix)) := by
  have hsound : s.Sound := (Place.sound_initial hoffset.le).walk hwalk
  -- at the limit there is always one more, so that stopping there is right
  have hmore : (suffixes lacking s).map (fun suffix => (offset, before ++ suffix)) ≠ [] :=
    fun hnil => suffixes_ne_nil hsound (map_eq_nil_iff.mp hnil)
  induction lacking generalizing before s patterns with
  | zero =>
    rw [enumerateVisibleSuffixes]
    split
    · rename_i hge
      exact (collect_full hle hge hmore).symm
    · rename_i hlt
      have hlength : (patterns ++ [(offset, before)]).length ≤ maxPatterns := by
        rw [length_append, length_singleton]
        exact Nat.lt_of_not_le hlt
      rw [suffixes, map_singleton, append_nil, collect, take_of_length_le hlength,
        decide_eq_false (Nat.not_lt.mpr hlength)]
  | succ lacking ih =>
    rw [enumerateVisibleSuffixes]
    split
    · rename_i hge
      exact (collect_full hle hge hmore).symm
    · rw [pieces_standard7, suffixes, map_flatMap]
      refine foldUntil_collect (fun piece _ patterns hle => ?_) hle
      have hstep : Place.walk ⟨offset, 0⟩ (before ++ [piece]) = s.step piece := by
        rw [Place.walk_append, hwalk]
        rfl
      rw [duplicateFor_isNone hoffset, hstep, Place.step]
      cases hhas : s.turn.has piece with
      | true => exact (collect_nil hle).symm
      | false =>
        rw [Place.step, hhas] at hstep
        have hdraw := hsound.turn.1.draw hsound.turn.2 hhas
        have hnext := ih hstep hle hdraw fun hnil =>
          suffixes_ne_nil hdraw (map_eq_nil_iff.mp hnil)
        refine hnext.trans (congrArg (collect maxPatterns patterns) ?_)
        simp only [Bool.false_eq_true, if_false, map_map, comp_def, append_assoc, singleton_append]

/-! ## Counting with a memo -/

/-- Counts of used pieces are those of a place. -/
structure CountsAt (offset : Nat) (usedCounts : UsedCounts) (s : Place) : Prop where
  offset_eq : offset = s.offset
  used_eq : ∀ piece, usedCounts piece = (s.has piece).toNat

theorem countsAt_initial (offset : Nat) : CountsAt offset (fun _ => 0) ⟨offset, 0⟩ :=
  ⟨rfl, fun piece => by rw [has_zero]; rfl⟩

variable {usedCounts : UsedCounts}

theorem CountsAt.turn (h : CountsAt offset usedCounts s) :
    CountsAt (normalizedBagState .standard7 offset usedCounts).1
      (normalizedBagState .standard7 offset usedCounts).2 s.turn := by
  rw [normalizedBagState, bagSize_standard7, Place.turn, h.offset_eq]
  split
  · exact countsAt_initial 0
  · exact ⟨rfl, h.used_eq⟩

theorem CountsAt.draw (h : CountsAt offset usedCounts s) {piece : PieceKind}
    (hfree : s.has piece = false) :
    CountsAt (offset + 1) (Function.update usedCounts piece (usedCounts piece + 1)) (s.draw piece) := by
  refine ⟨congrArg (· + 1) h.offset_eq, fun other => ?_⟩
  rw [has_draw]
  by_cases hother : other = piece
  · rw [hother, update_self, h.used_eq, hfree, decide_eq_true rfl]
    rfl
  · rw [update_of_ne hother, h.used_eq, decide_eq_false hother, Bool.or_false]

/-- Counts tell places apart. -/
theorem CountsAt.unique {s t : Place} (hs : CountsAt offset usedCounts s)
    (ht : CountsAt offset usedCounts t) (hsound : s.Sound) (hsound' : t.Sound) : s = t := by
  have hhas : ∀ piece, s.has piece = t.has piece := by
    intro piece
    have heq := (hs.used_eq piece).symm.trans (ht.used_eq piece)
    cases hx : s.has piece <;> cases hy : t.has piece <;> simp_all
  have hoffset : s.offset = t.offset := hs.offset_eq.symm.trans ht.offset_eq
  have hused : s.used = t.used := by
    refine BitVec.eq_of_getLsbD_eq fun i hi => ?_
    by_cases hseven : i = 7
    · rw [hseven, hsound.seven, hsound'.seven]
    · obtain ⟨piece, rfl⟩ : ∃ piece : PieceKind, piece.index = i := by
        have hall : ∀ i < 7, ∃ piece : PieceKind, piece.index = i := by decide
        exact hall i (by omega)
      exact hhas piece
  cases s
  cases t
  simp_all

/-- What a count is: saturated. -/
def saturated (n : Nat) : Nat := min n u128Max

theorem saturatingAdd128_saturated (a b : Nat) :
    saturatingAdd128 (saturated a) (saturated b) = saturated (a + b) := by
  simp only [saturatingAdd128, saturated]
  omega

/-- Every entry is the count of the places it is about. -/
def MemoCounts (memo : SuffixMemo) : Prop :=
  ∀ remaining offset usedCounts count, ((remaining, offset, usedCounts), count) ∈ memo →
    ∀ s : Place, s.Sound → CountsAt offset usedCounts s →
      count = saturated (suffixes remaining s).length

theorem turn_turn (h : s.Sound) : s.turn.turn = s.turn := by
  rw [Place.turn, if_neg h.turn.2.ne]

theorem suffixes_turn (h : s.Sound) (n : Nat) : suffixes (n + 1) s.turn = suffixes (n + 1) s := by
  rw [suffixes, suffixes, turn_turn h]

/-- The places after each piece share the count. -/
theorem foldlM_countSuffixes {n offset : Nat} (hcounts : CountsAt offset usedCounts s)
    (hbranch : ∀ piece, s.has piece = false → ∀ memo, MemoCounts memo →
      (countSuffixes .standard7 n (offset + 1)
        (Function.update usedCounts piece (usedCounts piece + 1)) memo).1 =
          saturated (suffixes n (s.draw piece)).length ∧
      MemoCounts (countSuffixes .standard7 n (offset + 1)
        (Function.update usedCounts piece (usedCounts piece + 1)) memo).2) (pieces : List PieceKind)
    (counted : Nat) (memo : SuffixMemo) (hmemo : MemoCounts memo) :
    let run := (pieces.map fun piece => (⟨piece, 1, 1⟩ : BagProfileEntry)).foldlM
      (m := StateM SuffixMemo) (fun count entry =>
        if usedCounts entry.piece < entry.multiplicity then do
          let suffixes ← countSuffixes .standard7 n (offset + 1)
            (Function.update usedCounts entry.piece (usedCounts entry.piece + 1))
          pure (saturatingAdd128 count suffixes)
        else pure count) (saturated counted) memo
    run.1 = saturated (counted + (pieces.flatMap fun piece =>
        if s.has piece then [] else (suffixes n (s.draw piece)).map (piece :: ·)).length) ∧
      MemoCounts run.2 := by
  induction pieces generalizing counted memo with
  | nil => exact ⟨rfl, hmemo⟩
  | cons piece pieces ih =>
    have hused := hcounts.used_eq piece
    cases hhas : s.has piece with
    | true =>
      rw [hhas] at hused
      simp only [map_cons, foldlM_cons, hused, Bool.toNat_true, lt_self_iff_false, if_false,
        flatMap_cons, hhas, if_true, nil_append]
      exact ih counted memo hmemo
    | false =>
      rw [hhas] at hused
      obtain ⟨hcount, hkeeps⟩ := hbranch piece hhas memo hmemo
      have hrest := ih (counted + (suffixes n (s.draw piece)).length) _ hkeeps
      rw [← saturatingAdd128_saturated, ← hcount] at hrest
      simp only [map_cons, foldlM_cons, hused, Bool.toNat_false, zero_lt_one, if_true,
        flatMap_cons, hhas, Bool.false_eq_true, if_false, length_append, length_map]
      rw [hused] at hrest
      rw [← Nat.add_assoc]
      exact hrest

theorem countSuffixes_spec {n offset : Nat} (hs : s.Sound) (hcounts : CountsAt offset usedCounts s)
    {memo : SuffixMemo} (hmemo : MemoCounts memo) :
    (countSuffixes .standard7 n offset usedCounts memo).1 = saturated (suffixes n s).length ∧
      MemoCounts (countSuffixes .standard7 n offset usedCounts memo).2 := by
  induction n generalizing offset usedCounts s memo with
  | zero => exact ⟨rfl, hmemo⟩
  | succ n ih =>
    have hturn := hcounts.turn
    rw [countSuffixes]
    revert hturn
    generalize normalizedBagState .standard7 offset usedCounts = state
    intro hturn
    simp only [bind, StateT.bind, get, getThe, MonadStateOf.get, StateT.get, pure]
    cases hlookup : memo.lookup (n + 1, state.1, state.2) with
    | some count =>
      obtain ⟨front, back, rfl, -⟩ := lookup_eq_some_iff.mp hlookup
      have hcount := hmemo _ _ _ _ (mem_append_right _ mem_cons_self) s.turn hs.turn.1 hturn
      rw [suffixes_turn hs] at hcount
      exact ⟨hcount, hmemo⟩
    | none =>
      have hfold := foldlM_countSuffixes hturn (fun piece hfree memo hmemo =>
        ih (hs.turn.1.draw hs.turn.2 hfree) (hturn.draw hfree) hmemo)
        PieceKind.standardTetrominoes 0 memo hmemo
      rw [Nat.zero_add] at hfold
      obtain ⟨hcount, hkeeps⟩ := hfold
      refine ⟨hcount, ?_⟩
      intro remaining offset' usedCounts' count' hmem t ht hat
      rcases mem_cons.mp hmem with heq | hold
      · simp only [Prod.mk.injEq] at heq
        obtain ⟨⟨rfl, rfl, rfl⟩, rfl⟩ := heq
        rw [hat.unique hturn ht hs.turn.1, suffixes_turn hs]
        exact hcount
      · exact hkeeps _ _ _ _ hold t ht hat

theorem boundaryStep_eq {s t : Place} (hcounts : CountsAt offset usedCounts s) {piece : PieceKind}
    (hstep : s.step piece = some t) :
    ∃ state, boundaryStep .standard7 (offset, usedCounts) piece = some state ∧
      CountsAt state.1 state.2 t := by
  have hturn := hcounts.turn
  have hentry : BagProfile.standard7.entries.find? (fun entry => entry.piece = piece) =
      some ⟨piece, 1, 1⟩ := by
    cases piece <;> rfl
  rw [boundaryStep, hentry]
  revert hturn
  generalize normalizedBagState .standard7 offset usedCounts = state
  intro hturn
  rw [Place.step] at hstep
  split at hstep
  · simp at hstep
  · rename_i hfree
    have hfree := Bool.eq_false_iff.mpr hfree
    cases hstep
    have hused := hturn.used_eq piece
    rw [hfree] at hused
    dsimp only
    rw [hused]
    exact ⟨_, rfl, hused ▸ hturn.draw hfree⟩

theorem boundaryStateAfterPrefix_eq (h : LeadsTo observed candidate) :
    ∃ state, boundaryStateAfterPrefix .standard7 observed candidate.1 = some state ∧
      CountsAt state.1 state.2 candidate.2 := by
  have hwalk : ∀ (pieces : List PieceKind) (state : Nat × UsedCounts) (s t : Place),
      CountsAt state.1 state.2 s → s.walk pieces = some t →
        ∃ state', pieces.foldlM (boundaryStep .standard7) state = some state' ∧
          CountsAt state'.1 state'.2 t := by
    intro pieces
    induction pieces with
    | nil =>
      intro state s t hcounts hwalk
      exact ⟨state, rfl, Option.some.inj hwalk ▸ hcounts⟩
    | cons piece pieces ih =>
      intro state s t hcounts hwalk
      rw [Place.walk, foldlM_cons, Option.bind_eq_bind, Option.bind_eq_some_iff] at hwalk
      obtain ⟨next, hnext, hrest⟩ := hwalk
      obtain ⟨state', hstate', hcounts'⟩ := boundaryStep_eq hcounts hnext
      obtain ⟨last, hlast, hcounts''⟩ := ih state' next t hcounts' hrest
      refine ⟨last, ?_, hcounts''⟩
      rw [foldlM_cons, hstate']
      exact hlast
  exact hwalk observed (candidate.1, fun _ => 0) ⟨candidate.1, 0⟩ candidate.2
    (countsAt_initial candidate.1) h.walk_eq

theorem countVisibleSuffixes_eq (h : LeadsTo observed candidate) (targetLen : Nat) :
    countVisibleSuffixesForCandidate .standard7 observed targetLen candidate.1 =
      some (saturated (suffixes (targetLen - observed.length) candidate.2).length) := by
  obtain ⟨state, hstate, hcounts⟩ := boundaryStateAfterPrefix_eq h
  have hempty : MemoCounts [] := fun _ _ _ _ hmem => absurd hmem not_mem_nil
  rw [countVisibleSuffixesForCandidate, hstate, Option.map_some]
  exact congrArg some (countSuffixes_spec h.sound hcounts hempty).1

theorem length_visible (observed : List PieceKind) (lacking : Nat) :
    (visible observed lacking).length =
      ((places observed).map fun candidate => (suffixes lacking candidate.2).length).sum := by
  simp only [visible, length_flatMap, length_map]

theorem visible_pos (h : places observed ≠ []) (lacking : Nat) :
    0 < (visible observed lacking).length := by
  obtain ⟨candidate, hcandidate⟩ := exists_mem_of_ne_nil _ h
  refine length_pos_of_ne_nil fun hnil => ?_
  have hsuffixes := flatMap_eq_nil_iff.mp hnil candidate hcandidate
  exact suffixes_ne_nil (leadsTo_of_mem hcandidate).sound (map_eq_nil_iff.mp hsuffixes)

theorem totalVisibleSuffixCount_eq (h : places observed ≠ []) (targetLen : Nat) :
    totalVisibleSuffixCount .standard7 observed targetLen ((places observed).map Prod.fst) =
      some (saturated (visible observed (targetLen - observed.length)).length) := by
  have hfold : ∀ (candidates : List (Nat × Place)) (total : Nat),
      (∀ candidate ∈ candidates, LeadsTo observed candidate) →
      (candidates.map Prod.fst).foldlM (fun total candidate => do
        let count ← countVisibleSuffixesForCandidate .standard7 observed targetLen candidate
        pure (saturatingAdd128 total count)) (saturated total) =
        some (saturated (total + (candidates.map fun candidate =>
          (suffixes (targetLen - observed.length) candidate.2).length).sum)) := by
    intro candidates
    induction candidates with
    | nil => exact fun total _ => rfl
    | cons candidate candidates ih =>
      intro total hall
      obtain ⟨hhead, htail⟩ := forall_mem_cons.mp hall
      rw [map_cons, foldlM_cons, countVisibleSuffixes_eq hhead]
      simp only [Option.bind_eq_bind, Option.bind_some, pure]
      rw [saturatingAdd128_saturated, map_cons, sum_cons, ← Nat.add_assoc]
      exact ih _ htail
  have hpos := visible_pos h (targetLen - observed.length)
  have htotal := hfold (places observed) 0 fun _ => leadsTo_of_mem
  rw [Nat.zero_add, ← length_visible] at htotal
  rw [totalVisibleSuffixCount]
  refine (congrArg (Option.bind · _) htotal).trans ?_
  refine if_pos ?_
  simp only [saturated, u128Max]
  omega

/-! ## The expansion -/

theorem checkIndices_ok (rawPatterns : List (Nat × List PieceKind))
    (probabilities : List ProbabilityValue) (start : Nat) :
    checkIndices start ((rawPatterns.zipIdx start |>.zip probabilities).map
      fun ((raw, index), probability) => ⟨index, raw.1, raw.2, probability⟩) = .ok () := by
  induction rawPatterns generalizing probabilities start with
  | nil => rfl
  | cons raw rawPatterns ih =>
    cases probabilities with
    | nil => rfl
    | cons probability probabilities =>
      rw [zipIdx_cons, zip_cons_cons, map_cons, checkIndices,
        refuseIf_of_not (not_not.mpr rfl), ok_bind]
      exact ih probabilities (start + 1)

variable {rawPatterns : List (Nat × List PieceKind)}

theorem probability_numberPatterns {probabilities : List ProbabilityValue}
    (h : probabilities.length = rawPatterns.length) :
    (numberPatterns rawPatterns probabilities).map ObservedQueuePattern.probability =
      probabilities := by
  rw [numberPatterns, map_map]
  exact map_snd_zip (by rw [length_zipIdx, h])

theorem queuePattern_numberPatterns {probabilities : List ProbabilityValue}
    (h : probabilities.length = rawPatterns.length) :
    (numberPatterns rawPatterns probabilities).map ObservedQueuePattern.queuePattern =
      rawPatterns.map Prod.snd := by
  have hfst : (rawPatterns.zipIdx.zip probabilities).map Prod.fst = rawPatterns.zipIdx :=
    map_fst_zip (by rw [length_zipIdx, h])
  calc (numberPatterns rawPatterns probabilities).map ObservedQueuePattern.queuePattern
      = ((rawPatterns.zipIdx.zip probabilities).map Prod.fst).map fun numbered => numbered.1.2 := by
        rw [numberPatterns, map_map, map_map]
        rfl
    _ = (rawPatterns.zipIdx.map Prod.fst).map Prod.snd := by
        rw [hfst, map_map]
        rfl
    _ = rawPatterns.map Prod.snd := by rw [zipIdx_map_fst]

/-- Patterns pass all checks, if there are no more than the total. -/
theorem patternSet_ok {total : Nat} (hpos : 0 < rawPatterns.length)
    (hle : rawPatterns.length ≤ total) (hint : PatternUniverseHint) :
    ∃ probabilities patternSet,
      materializedProbabilities rawPatterns.length total = .ok probabilities ∧
      ObservedQueuePatternSet.new (numberPatterns rawPatterns probabilities) total hint =
        .ok patternSet ∧
      patternSet.patterns.map ObservedQueuePattern.queuePattern = rawPatterns.map Prod.snd := by
  obtain ⟨probabilities, hprobabilities, hlength, hweights⟩ := materializedProbabilities_ok hpos hle
  have hqueues := queuePattern_numberPatterns hlength
  have hcount : (numberPatterns rawPatterns probabilities).length = rawPatterns.length := by
    rw [← length_map (f := ObservedQueuePattern.queuePattern), hqueues, length_map]
  refine ⟨probabilities, ⟨_, probabilities, total, hint⟩, hprobabilities, ?_, hqueues⟩
  rw [ObservedQueuePatternSet.new, refuseIf_of_not (ne_nil_of_length_pos (hcount ▸ hpos)),
    ok_bind, refuseIf_of_not (by omega), ok_bind, numberPatterns, checkIndices_ok,
    ok_bind, ← numberPatterns, probability_numberPatterns hlength, hweights]
  rfl

/-- The expansion lists what is visible, up to its limit, and says whether that was all. -/
theorem expand_eq_ok (h : places observed ≠ []) {minimumLen maxPatterns lacking : Nat}
    (hpos : 0 < maxPatterns) (hmax : maxPatterns ≤ usizeMax)
    (hlacking : max minimumLen observed.length - observed.length = lacking) :
    ∃ expansion, ObservedQueueExpansion.expand observed minimumLen maxPatterns = .ok expansion ∧
      expansion.queues = ((visible observed lacking).map Prod.snd).take maxPatterns ∧
      expansion.truncated = decide (maxPatterns < (visible observed lacking).length) := by
  have htotal := totalVisibleSuffixCount_eq h (max minimumLen observed.length)
  have hvisible := visible_pos h lacking
  have hout : foldUntil Enumeration.truncated (fun out candidate =>
      enumerateVisibleSuffixes .standard7 candidate maxPatterns lacking observed out)
      ⟨[], false⟩ ((places observed).map Prod.fst) = collect maxPatterns [] (visible observed lacking) := by
    rw [visible, foldUntil_map]
    refine foldUntil_collect (fun candidate hcandidate patterns hle => ?_) (Nat.zero_le _)
    have hleads := leadsTo_of_mem hcandidate
    exact enumerateVisibleSuffixes_eq hleads.offset_lt hleads.walk_eq hle
  have hcount : (collect maxPatterns [] (visible observed lacking)).patterns.length =
      min maxPatterns (visible observed lacking).length := by
    rw [collect, nil_append, length_take]
  have hsaturated : min maxPatterns (visible observed lacking).length ≤
      saturated (visible observed lacking).length := by
    simp only [usizeMax] at hmax
    simp only [saturated, u128Max]
    omega
  obtain ⟨probabilities, patternSet, hprobabilities, hset, hqueues⟩ :=
    patternSet_ok (by omega) (hcount.trans_le hsaturated)
      (BagProfile.standard7.patternUniverseHint (max minimumLen observed.length))
  rw [hlacking] at htotal
  refine ⟨⟨(places observed).map Prod.fst, patternSet,
    decide (maxPatterns < (visible observed lacking).length)⟩, ?_, hqueues.trans ?_, rfl⟩
  · rw [ObservedQueueExpansion.expand, ObservedQueueExpansion.expandWithBagProfile,
      refuseIf_of_not hpos.ne', ok_bind, analyzeObservedWindowWithProfile_eq]
    dsimp only
    rw [refuseIf_of_not (fun hnil => h (map_eq_nil_iff.mp hnil)), ok_bind]
    simp only [htotal, hlacking, hout, hprobabilities, Except.mapError, ok_bind, hset]
    rfl
  · rw [collect, nil_append, map_take]

end Clearra.Proof.Supply
