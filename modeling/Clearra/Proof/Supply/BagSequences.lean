import Clearra.Proof.Supply.BagDraws

/-!
# The words a bag can give

`drawWord` succeeds on exactly the words that are cut into bags: a first stretch out of what is
left of the open bag, and then, every bag's length, a stretch out of a full one
(`drawWord_isSome_iff`). For the standard bag a stretch out of a full one is a stretch without
repetitions, which is the usual definition of a seven-bag sequence.

No word is a dead end (`exists_drawWord`), and two words of the same length that leave the same
remainder took the same pieces (`drawWord_sync`), so a state of the breadth-first pass determines
the multiset it was reached with.
-/

namespace Clearra.Proof.Supply

open Clearra.Supply List Nat Function Option

/-- Cut every `full.totalCount` pieces, each stretch comes out of a full bag. -/
def FitsBags (full : PieceMultisetKey) (word : List PieceKind) : Prop :=
  ∀ k q, ((word.drop (full.totalCount * k)).take full.totalCount).count q ≤ full.counts q

/-- **A standard seven-bag sequence**: no piece comes twice in any of the aligned stretches of
    seven. -/
def IsStandard7BagSequence (sequence : List PieceKind) : Prop :=
  ∀ k, ((sequence.drop (7 * k)).take 7).Nodup

/-- `STANDARD_TETROMINOES`, as a bag. -/
def standardBag : PieceMultisetKey := .fromPieces PieceKind.standardTetrominoes

theorem standardBag_counts (p : PieceKind) : standardBag.counts p = 1 := by
  cases p <;> decide

theorem standardBag_totalCount : standardBag.totalCount = 7 := by decide

theorem isBag_standardBag : IsBag standardBag where
  counts_le := fun p => by rw [standardBag_counts]; decide
  total_eq := by decide
  pos := by decide

theorem fitsBags_standardBag {word : List PieceKind} :
    FitsBags standardBag word ↔ IsStandard7BagSequence word := by
  unfold FitsBags IsStandard7BagSequence
  simp only [standardBag_counts, standardBag_totalCount, nodup_iff_count_le_one]

section

variable {full : PieceMultisetKey} {b c : BagPlacementState} {p : PieceKind}

theorem fitsBags_iff (word : List PieceKind) : FitsBags full word ↔
    (∀ q, (word.take full.totalCount).count q ≤ full.counts q) ∧
      FitsBags full (word.drop full.totalCount) := by
  constructor
  · intro h
    refine ⟨fun q => by simpa using h 0 q, fun k q => ?_⟩
    rw [drop_drop, Nat.add_comm, ← mul_succ]
    exact h (k + 1) q
  · rintro ⟨hfirst, hrest⟩ k q
    cases k with
    | zero => simpa using hfirst q
    | succ k =>
      have := hrest k q
      rwa [drop_drop, Nat.add_comm, ← mul_succ] at this

theorem counts_drawOne (h : drawOne full b p = some c) (q : PieceKind) :
    c.bagRemainder.counts q + [p].count q = (refill full b.bagRemainder).counts q := by
  obtain ⟨r, hr, rfl⟩ := drawOne_eq_some h
  obtain ⟨hp, hcounts⟩ := counts_removePiece hr
  change r.counts q + _ = _
  rw [hcounts]
  by_cases hq : q = p
  · subst hq
    rw [update_self, count_singleton_self]
    omega
  · rw [update_of_ne hq, count_singleton, if_neg (by simpa using Ne.symm hq)]
    omega

theorem totalCount_drawOne (hbag : IsBag full) (hb : Within full b.bagRemainder)
    (h : drawOne full b p = some c) :
    c.bagRemainder.totalCount + 1 = (refill full b.bagRemainder).totalCount := by
  obtain ⟨r, hr, rfl⟩ := drawOne_eq_some h
  exact ((hb.refill hbag).removePiece hbag hr).2

theorem drawOne_isSome_iff :
    (drawOne full b p).isSome ↔ (refill full b.bagRemainder).counts p ≠ 0 := by
  rw [drawOne, isSome_map, removePiece_isSome_iff]

theorem refill_pos (hbag : IsBag full) (r : PieceMultisetKey) :
    0 < (refill full r).totalCount := by
  rw [refill]
  split
  · exact hbag.pos
  · omega

/-- **The words that can be drawn** are those cut into bags, the first one being what is left of
    the open bag. Induction on the word; the only case with an argument is the draw that empties
    the bag, where the rest starts a full one. -/
theorem drawWord_isSome_iff (hbag : IsBag full) (word : List PieceKind) :
    ∀ {b : BagPlacementState}, Within full b.bagRemainder → ((drawWord full b word).isSome ↔
        (∀ q, (word.take (refill full b.bagRemainder).totalCount).count q ≤
          (refill full b.bagRemainder).counts q) ∧
        FitsBags full (word.drop (refill full b.bagRemainder).totalCount)) := by
  induction word with
  | nil =>
    intro b _
    simp [drawWord, FitsBags]
  | cons p word ih =>
    intro b hb
    have hpos := refill_pos hbag b.bagRemainder
    obtain ⟨t, ht⟩ : ∃ t, (refill full b.bagRemainder).totalCount = t + 1 :=
      ⟨_, (succ_pred_eq_of_pos hpos).symm⟩
    rw [ht, take_succ_cons, drop_succ_cons, drawWord]
    cases hc : drawOne full b p with
    | none =>
      have hzero : (refill full b.bagRemainder).counts p = 0 := by
        by_contra hne
        have := drawOne_isSome_iff.mpr hne
        rw [hc] at this
        cases this
      refine iff_of_false (by simp) fun h => ?_
      have := h.1 p
      rw [count_cons_self] at this
      omega
    | some c =>
      have hcounts := counts_drawOne hc
      have htotal : c.bagRemainder.totalCount = t := by
        have := totalCount_drawOne hbag hb hc
        omega
      have hfirst : (∀ q, (p :: word.take t).count q ≤ (refill full b.bagRemainder).counts q) ↔
          ∀ q, (word.take t).count q ≤ c.bagRemainder.counts q := by
        refine forall_congr' fun q => ?_
        have := hcounts q
        rw [← singleton_append, count_append]
        omega
      have hcw := drawOne_within hbag hb hc
      rw [bind_some, hfirst, ih hcw, refill, htotal]
      cases t with
      | zero =>
        rw [if_pos rfl, ← fitsBags_iff]
        simp
      | succ t => rw [if_neg (succ_ne_zero t), htotal]

theorem drawWord_isSome_iff_fitsBags (hbag : IsBag full) (hb : b.bagRemainder = full)
    (word : List PieceKind) : (drawWord full b word).isSome ↔ FitsBags full word := by
  have hrefill : refill full full = full := by
    rw [refill, if_neg (by have := hbag.pos; omega)]
  rw [drawWord_isSome_iff hbag word (by rw [hb]; exact hbag.within), hb, hrefill, ← fitsBags_iff]

theorem exists_drawWord (hbag : IsBag full) : ∀ (d : Nat) {b : BagPlacementState},
    Within full b.bagRemainder → ∃ word, word.length = d ∧ (drawWord full b word).isSome := by
  intro d
  induction d with
  | zero => intro b _; exact ⟨[], rfl, rfl⟩
  | succ d ih =>
    intro b hb
    have hpiece : ∃ p, (refill full b.bagRemainder).counts p ≠ 0 := by
      by_contra hnone
      have hzero : ∀ p, (refill full b.bagRemainder).counts p = 0 := by
        intro p
        by_contra hp
        exact hnone ⟨p, hp⟩
      have hsum := (hb.refill hbag).total_eq
      rw [pieceSum_eq] at hsum
      simp only [hzero] at hsum
      have := refill_pos hbag b.bagRemainder
      omega
    obtain ⟨p, hp⟩ := hpiece
    obtain ⟨c, hc⟩ := isSome_iff_exists.mp (drawOne_isSome_iff.mpr hp)
    obtain ⟨word, hlen, hword⟩ := ih (drawOne_within hbag hb hc)
    refine ⟨p :: word, by rw [length_cons, hlen], ?_⟩
    rw [drawWord, hc]
    exact hword

/-- A word that can be drawn is drawn bag by bag: after it, the pieces taken and the pieces left
    are the pieces there were and some number of full bags, a number that only depends on how many
    were drawn. So two words of one length run in step. -/
theorem drawWord_sync (hbag : IsBag full) : ∀ (word word' : List PieceKind)
    {b b' c c' : BagPlacementState}, word.length = word'.length →
    Within full b.bagRemainder → Within full b'.bagRemainder → b.cursor = b'.cursor →
    b.bagEpoch = b'.bagEpoch → b.bagRemainder.totalCount = b'.bagRemainder.totalCount →
    drawWord full b word = some c → drawWord full b' word' = some c' →
    c.cursor = c'.cursor ∧ c.bagEpoch = c'.bagEpoch ∧
      ∃ opened, (∀ q, word.count q + c.bagRemainder.counts q =
          b.bagRemainder.counts q + opened * full.counts q) ∧
        ∀ q, word'.count q + c'.bagRemainder.counts q =
          b'.bagRemainder.counts q + opened * full.counts q := by
  intro word
  induction word with
  | nil =>
    rintro word' b b' c c' hlen _ _ hcursor hepoch _ ⟨⟩ hc'
    obtain rfl := length_eq_zero_iff.mp hlen.symm
    cases hc'
    exact ⟨hcursor, hepoch, 0, by simp, by simp⟩
  | cons p word ih =>
    rintro word' b b' c c' hlen hb hb' hcursor hepoch htotal hc hc'
    cases word' with
    | nil => simp at hlen
    | cons p' word' =>
      obtain ⟨e, he, hrest⟩ := bind_eq_some_iff.mp hc
      obtain ⟨e', he', hrest'⟩ := bind_eq_some_iff.mp hc'
      -- both draws refill, or neither does
      have hrefill : ∃ opened, (∀ q, (refill full b.bagRemainder).counts q =
            b.bagRemainder.counts q + opened * full.counts q) ∧
          (∀ q, (refill full b'.bagRemainder).counts q =
            b'.bagRemainder.counts q + opened * full.counts q) ∧
          (refill full b.bagRemainder).totalCount = (refill full b'.bagRemainder).totalCount := by
        by_cases hzero : b.bagRemainder.totalCount = 0
        · have hzero' : b'.bagRemainder.totalCount = 0 := by omega
          refine ⟨1, fun q => ?_, fun q => ?_, ?_⟩
          · have hnone := pieceSum_eq_zero (hb.total_eq.symm.trans hzero) q
            rw [refill, if_pos hzero, hnone]
            omega
          · have hnone := pieceSum_eq_zero (hb'.total_eq.symm.trans hzero') q
            rw [refill, if_pos hzero', hnone]
            omega
          · rw [refill, refill, if_pos hzero, if_pos hzero']
        · have hzero' : ¬b'.bagRemainder.totalCount = 0 := by omega
          refine ⟨0, fun q => ?_, fun q => ?_, ?_⟩
          · rw [refill, if_neg hzero]
            omega
          · rw [refill, if_neg hzero']
            omega
          · rw [refill, refill, if_neg hzero, if_neg hzero', htotal]
      obtain ⟨opened, hopen, hopen', hsame⟩ := hrefill
      have hcounts := counts_drawOne he
      have hcounts' := counts_drawOne he'
      have htotal₁ := totalCount_drawOne hbag hb he
      have htotal₁' := totalCount_drawOne hbag hb' he'
      have hcursor₁ : e.cursor = e'.cursor := by
        obtain ⟨r, -, rfl⟩ := drawOne_eq_some he
        obtain ⟨r', -, rfl⟩ := drawOne_eq_some he'
        exact congrArg (· + 1) hcursor
      have hepoch₁ : e.bagEpoch = e'.bagEpoch := by
        obtain ⟨r, -, rfl⟩ := drawOne_eq_some he
        obtain ⟨r', -, rfl⟩ := drawOne_eq_some he'
        simp only [htotal, hcursor, hepoch]
      obtain ⟨hcursor', hepoch', more, hmore, hmore'⟩ := ih word' (by simpa using hlen)
        (drawOne_within hbag hb he) (drawOne_within hbag hb' he') hcursor₁ hepoch₁ (by omega)
        hrest hrest'
      refine ⟨hcursor', hepoch', opened + more, fun q => ?_, fun q => ?_⟩
      · have h1 := hmore q
        have h2 := hcounts q
        have h3 := hopen q
        rw [← singleton_append, count_append, Nat.add_mul]
        omega
      · have h1 := hmore' q
        have h2 := hcounts' q
        have h3 := hopen' q
        rw [← singleton_append, count_append, Nat.add_mul]
        omega

theorem drawWord_setHold (h : Option PieceKind) (word : List PieceKind) :
    ∀ b : BagPlacementState, drawWord full { b with holdPiece := h } word =
      (drawWord full b word).map fun c => { c with holdPiece := h } := by
  induction word with
  | nil => intro b; rfl
  | cons p word ih =>
    intro b
    have hone : drawOne full { b with holdPiece := h } p =
        (drawOne full b p).map fun c => { c with holdPiece := h } := by
      simp only [drawOne, Option.map_map]
      rfl
    rw [drawWord, drawWord, hone]
    cases drawOne full b p with
    | none => rfl
    | some c => exact ih c

end

end Clearra.Proof.Supply
