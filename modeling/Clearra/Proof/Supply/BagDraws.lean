import Clearra.Supply.BagAutomaton
import Clearra.Proof.Supply.SlotRuns

/-!
# Drawing from a bag

The bag automaton packs what is left of the bag into a `u64` and unpacks it again at every step,
checks the cursor and the epoch for overflow, and validates its own state before it moves. On the
states the projection starts from none of these checks can fail: what is packed fits its nibbles
(`decodeRemainder_encodeRemainder`), and `project_bag_initial_state` has reserved room for every
draw (`Room`, kept by every draw). What is left is a partial function on the unpacked state,
`drawOne`, and the branches of the automaton are the steps of the slot machine on the words that
can be drawn (`mem_bagBranches_iff`).
-/

namespace Clearra.Proof.Supply

open Clearra.Supply Lib SupplyExecutionAutomaton BagPlacementAutomaton List Nat Function PieceKind

/-! ## The packed remainder -/

theorem or_shiftLeft {acc n k : Nat} (hacc : acc < 2 ^ k) : acc ||| (n <<< k) = acc + n * 2 ^ k := by
  rw [shiftLeft_eq, Nat.or_comm, Nat.mul_comm, ← two_pow_add_eq_or_of_lt hacc, Nat.add_comm]

theorem toNat_encodeRemainder {r : PieceMultisetKey} (h : ∀ p, r.counts p ≤ 15) :
    (encodeRemainder r).toNat = r.counts .I * 2 ^ 4 + r.counts .O * 2 ^ 8 + r.counts .T * 2 ^ 12 +
      r.counts .S * 2 ^ 16 + r.counts .Z * 2 ^ 20 + r.counts .J * 2 ^ 24 +
      r.counts .L * 2 ^ 28 := by
  have hI := h .I
  have hO := h .O
  have hT := h .T
  have hS := h .S
  have hZ := h .Z
  have hJ := h .J
  have hshift : ∀ p, (UInt64.ofNat (r.counts p) <<< nibbleShift p).toNat =
      r.counts p <<< ((p.index + 1) * 4) := by
    intro p
    have hp := h p
    have hs : (nibbleShift p).toNat % 64 = (p.index + 1) * 4 := by cases p <;> decide
    rw [UInt64.toNat_shiftLeft, hs, UInt64.toNat_ofNat_of_lt' (by change _ < 2 ^ 64; omega)]
    refine mod_eq_of_lt ?_
    rw [shiftLeft_eq]
    calc r.counts p * 2 ^ ((p.index + 1) * 4) ≤ 15 * 2 ^ 28 := by
          refine Nat.mul_le_mul hp (Nat.pow_le_pow_right (by decide) ?_)
          cases p <;> decide
      _ < 2 ^ 64 := by decide
  simp only [encodeRemainder, standardTetrominoes, foldl_cons, foldl_nil,
    UInt64.toNat_or, hshift, UInt64.toNat_zero, zero_or, index, Nat.reduceAdd,
    Nat.reduceMul]
  rw [shiftLeft_eq (r.counts .I), or_shiftLeft (n := r.counts .O) (by omega),
    or_shiftLeft (n := r.counts .T) (by omega), or_shiftLeft (n := r.counts .S) (by omega),
    or_shiftLeft (n := r.counts .Z) (by omega), or_shiftLeft (n := r.counts .J) (by omega),
    or_shiftLeft (n := r.counts .L) (by omega)]

theorem decodeRemainder_encodeRemainder {r : PieceMultisetKey} (h : ∀ p, r.counts p ≤ 15) :
    decodeRemainder (encodeRemainder r) = .ok (.fromCounts r.counts) := by
  have hval := toNat_encodeRemainder h
  have hI := h .I
  have hO := h .O
  have hT := h .T
  have hS := h .S
  have hZ := h .Z
  have hJ := h .J
  have hL := h .L
  have hmask : encodeRemainder r &&& ~~~storageMask = 0 := by
    rw [← UInt64.toNat_inj, UInt64.toNat_and, UInt64.toNat_zero]
    have hconst : (~~~storageMask).toNat = 0xFFFFFFFF0000000F := by decide
    rw [hconst]
    refine eq_of_testBit_eq fun i => ?_
    rw [testBit_and, zero_testBit]
    rcases Nat.lt_or_ge i 4 with hi | hi
    · have : (encodeRemainder r).toNat = 2 ^ 4 * ((encodeRemainder r).toNat / 16) := by omega
      rw [this, testBit_two_pow_mul]
      simp [Nat.not_le.mpr hi]
    · rcases Nat.lt_or_ge i 32 with hi2 | hi2
      · have : ∀ i < 32, 4 ≤ i → Nat.testBit 0xFFFFFFFF0000000F i = false := by decide
        rw [this i hi2 hi, Bool.and_false]
      · rw [testBit_lt_two_pow (lt_of_lt_of_le (b := 2 ^ 32) (by omega)
          (Nat.pow_le_pow_right (by decide) hi2)), Bool.false_and]
  rw [decodeRemainder, if_neg (by rw [hmask]; simp)]
  congr 2
  funext p
  have hs : (nibbleShift p).toNat % 64 = (p.index + 1) * 4 := by cases p <;> decide
  rw [UInt64.toNat_and, UInt64.toNat_shiftRight, hs, shiftRight_eq_div_pow,
    show (0xf : UInt64).toNat = 2 ^ 4 - 1 from rfl, and_two_pow_sub_one_eq_mod, hval]
  cases p <;> simp only [index] <;> omega

/-! ## Bags and what is left of them -/

/-- The counts of a key, added up. -/
def pieceSum (counts : PieceKind → Nat) : Nat := (standardTetrominoes.map counts).sum

theorem pieceSum_eq (counts : PieceKind → Nat) : pieceSum counts =
    counts .I + counts .O + counts .T + counts .S + counts .Z + counts .J + counts .L := by
  simp only [pieceSum, standardTetrominoes, map_cons, map_nil, sum_cons, sum_nil]
  omega

variable {counts : PieceKind → Nat}

theorem totalCount_fromCounts (h : ∀ p, counts p ≤ 15) :
    (PieceMultisetKey.fromCounts counts).totalCount = pieceSum counts := by
  have hI := h .I
  have hO := h .O
  have hT := h .T
  have hS := h .S
  have hZ := h .Z
  have hJ := h .J
  have hL := h .L
  rw [pieceSum_eq]
  simp only [PieceMultisetKey.fromCounts, standardTetrominoes, map_cons,
    map_nil, foldl_cons, foldl_nil, saturatingAdd8]
  omega

theorem pieceSum_update {p : PieceKind} (h : counts p ≠ 0) :
    pieceSum (Function.update counts p (counts p - 1)) + 1 = pieceSum counts := by
  rw [pieceSum_eq, pieceSum_eq]
  cases p <;> simp [Function.update] <;> omega

theorem pieceSum_eq_zero (h : pieceSum counts = 0) (p : PieceKind) :
    counts p = 0 := by
  rw [pieceSum_eq] at h
  cases p <;> omega

/-- A bag profile `for_bag` accepts: small counts, a true total, not empty. -/
structure IsBag (full : PieceMultisetKey) : Prop where
  counts_le : ∀ p, full.counts p ≤ 15
  total_eq : full.totalCount = pieceSum full.counts
  pos : 0 < full.totalCount

/-- Something a bag can be reduced to. -/
structure Within (full r : PieceMultisetKey) : Prop where
  le : ∀ p, r.counts p ≤ full.counts p
  total_eq : r.totalCount = pieceSum r.counts

section Remainders

variable {full r r' : PieceMultisetKey} {p : PieceKind}

theorem IsBag.within (hbag : IsBag full) : Within full full := ⟨fun _ => le_rfl, hbag.total_eq⟩

theorem Within.counts_le (hbag : IsBag full) (h : Within full r) (p : PieceKind) :
    r.counts p ≤ 15 := (h.le p).trans (hbag.counts_le p)

theorem Within.eq_fromCounts (hbag : IsBag full) (h : Within full r) :
    PieceMultisetKey.fromCounts r.counts = r := by
  ext q
  · rfl
  · rw [totalCount_fromCounts (h.counts_le hbag), h.total_eq]

theorem Within.decode (hbag : IsBag full) (h : Within full r) :
    decodeRemainder (encodeRemainder r) = .ok r := by
  rw [decodeRemainder_encodeRemainder (h.counts_le hbag), h.eq_fromCounts hbag]

theorem Within.exceedsBag (h : Within full r) : exceedsBag full r = false := by
  rw [Supply.exceedsBag, any_eq_false]
  intro q _
  have := h.le q
  simpa [PieceMultisetKey.count] using this

/-- `draw_bag_piece` first replaces an empty remainder by a full bag. -/
def refill (full r : PieceMultisetKey) : PieceMultisetKey := if r.totalCount = 0 then full else r

theorem Within.refill (hbag : IsBag full) (h : Within full r) : Within full (refill full r) := by
  rw [Supply.refill]
  split
  · exact hbag.within
  · exact h

theorem counts_removePiece (h : removePiece r p = some r') :
    r.counts p ≠ 0 ∧ r'.counts = Function.update r.counts p (r.counts p - 1) := by
  rw [removePiece] at h
  split at h
  · cases h
  · rename_i hp
    cases h
    exact ⟨hp, rfl⟩

theorem removePiece_isSome_iff : (removePiece r p).isSome ↔ r.counts p ≠ 0 := by
  rw [removePiece]
  split <;> simp [*]

theorem Within.removePiece (hbag : IsBag full) (h : Within full r)
    (hr : removePiece r p = some r') : Within full r' ∧ r'.totalCount + 1 = r.totalCount := by
  rw [Supply.removePiece] at hr
  split at hr
  · cases hr
  · rename_i hp
    cases hr
    have hle : ∀ q, Function.update r.counts p (r.counts p - 1) q ≤ full.counts q := by
      intro q
      by_cases hq : q = p
      · subst hq
        rw [update_self]
        exact (sub_le _ _).trans (h.le q)
      · rw [update_of_ne hq]
        exact h.le q
    have htotal : (PieceMultisetKey.fromCounts
        (Function.update r.counts p (r.counts p - 1))).totalCount =
          pieceSum (Function.update r.counts p (r.counts p - 1)) :=
      totalCount_fromCounts fun q => (hle q).trans (hbag.counts_le q)
    refine ⟨⟨hle, htotal⟩, ?_⟩
    rw [htotal, pieceSum_update hp, h.total_eq]

end Remainders

/-! ## Draws -/

/-- `draw_bag_piece` on the unpacked state, without its overflow checks. -/
def drawOne (full : PieceMultisetKey) (b : BagPlacementState) (p : PieceKind) :
    Option BagPlacementState :=
  (removePiece (refill full b.bagRemainder) p).map fun r =>
    { b with
      cursor := b.cursor + 1
      bagEpoch := if b.bagRemainder.totalCount = 0 ∧ b.cursor ≠ 0 then b.bagEpoch + 1
        else b.bagEpoch
      bagRemainder := r }

/-- The draws of a word, in order. -/
def drawWord (full : PieceMultisetKey) : BagPlacementState → List PieceKind →
    Option BagPlacementState
  | b, [] => some b
  | b, p :: word => (drawOne full b p).bind fun c => drawWord full c word

/-- The overflow checks of `project_bag_initial_state`: `d` more draws fit the cursor, and the
    bags they open fit the epoch. -/
structure Room (full : PieceMultisetKey) (b : BagPlacementState) (d : Nat) : Prop where
  cursor_lt : b.cursor.toNat + d < 2 ^ 16
  epoch_lt : b.bagEpoch.toNat +
    (d - b.bagRemainder.totalCount + (full.totalCount - 1)) / full.totalCount < 2 ^ 16

section Draws

variable {full : PieceMultisetKey} {b c : BagPlacementState} {p : PieceKind}

theorem drawOne_eq_some (h : drawOne full b p = some c) :
    ∃ r, removePiece (refill full b.bagRemainder) p = some r ∧
      c = { b with
        cursor := b.cursor + 1
        bagEpoch := if b.bagRemainder.totalCount = 0 ∧ b.cursor ≠ 0 then b.bagEpoch + 1
          else b.bagEpoch
        bagRemainder := r } := by
  rw [drawOne, Option.map_eq_some_iff] at h
  obtain ⟨r, hr, rfl⟩ := h
  exact ⟨r, hr, rfl⟩

theorem drawOne_holdPiece (h : drawOne full b p = some c) : c.holdPiece = b.holdPiece := by
  obtain ⟨r, -, rfl⟩ := drawOne_eq_some h
  rfl

theorem drawOne_within (hbag : IsBag full) (hb : Within full b.bagRemainder)
    (h : drawOne full b p = some c) : Within full c.bagRemainder := by
  obtain ⟨r, hr, rfl⟩ := drawOne_eq_some h
  exact ((hb.refill hbag).removePiece hbag hr).1

theorem Room.mono {d d' : Nat} (h : Room full b d) (hd : d' ≤ d) : Room full b d' := by
  refine ⟨by have := h.cursor_lt; omega, lt_of_le_of_lt ?_ h.epoch_lt⟩
  exact Nat.add_le_add_left (Nat.div_le_div_right (by omega)) _

/-- A refill opens the one bag the first of the missing draws needed. -/
theorem refills_of_empty {F d : Nat} (hF : 0 < F) :
    (d + 1 + (F - 1)) / F = (d - (F - 1) + (F - 1)) / F + 1 := by
  have hsucc : d + 1 + (F - 1) = d + F := by omega
  rw [hsucc, add_div_right _ hF]
  congr 1
  rcases Nat.lt_or_ge d F with hd | hd
  · rw [div_eq_of_lt hd, div_eq_of_lt (by omega)]
  · rw [show d - (F - 1) + (F - 1) = d by omega]

theorem Room.draw {d : Nat} (hbag : IsBag full) (hb : Within full b.bagRemainder)
    (hroom : Room full b (d + 1)) (h : drawOne full b p = some c) : Room full c d := by
  obtain ⟨r, hr, rfl⟩ := drawOne_eq_some h
  obtain ⟨hcursor, hepoch⟩ := hroom
  have hcur : (b.cursor + 1).toNat = b.cursor.toNat + 1 := by
    rw [UInt16.toNat_add]
    exact mod_eq_of_lt (by change _ + 1 < _; omega)
  refine ⟨?_, ?_⟩
  · change (b.cursor + 1).toNat + d < _
    rw [hcur]
    omega
  · change (if b.bagRemainder.totalCount = 0 ∧ b.cursor ≠ 0 then b.bagEpoch + 1
      else b.bagEpoch).toNat + (d - r.totalCount + (full.totalCount - 1)) / full.totalCount < _
    have htotal := ((hb.refill hbag).removePiece hbag hr).2
    rw [refill] at htotal
    by_cases hzero : b.bagRemainder.totalCount = 0
    · -- the bag was empty: the new one is full but for this draw
      rw [if_pos hzero] at htotal
      have hrefills := refills_of_empty (d := d) hbag.pos
      rw [hzero, Nat.sub_zero, hrefills] at hepoch
      rw [show r.totalCount = full.totalCount - 1 by omega]
      clear hrefills
      generalize (d - (full.totalCount - 1) + (full.totalCount - 1)) / full.totalCount = opened
        at hepoch ⊢
      split
      · rw [UInt16.toNat_add, mod_eq_of_lt (by change _ + 1 < _; omega)]
        change b.bagEpoch.toNat + 1 + _ < _
        omega
      · omega
    · rw [if_neg hzero] at htotal
      rw [if_neg (fun hcon => hzero hcon.1)]
      rw [show d - r.totalCount = d + 1 - b.bagRemainder.totalCount by omega]
      exact hepoch

theorem drawWord_append (word rest : List PieceKind) :
    ∀ b, drawWord full b (word ++ rest) = (drawWord full b word).bind (drawWord full · rest) := by
  induction word with
  | nil => intro b; rfl
  | cons p word ih =>
    intro b
    rw [cons_append, drawWord, drawWord, Option.bind_assoc]
    congr 1
    funext c
    exact ih c

theorem drawWord_keeps (hbag : IsBag full) {word : List PieceKind} :
    ∀ {b c : BagPlacementState}, Within full b.bagRemainder → drawWord full b word = some c →
      Within full c.bagRemainder ∧ c.holdPiece = b.holdPiece := by
  induction word with
  | nil => rintro b c hb ⟨⟩; exact ⟨hb, rfl⟩
  | cons p word ih =>
    intro b c hb h
    obtain ⟨d, hd, hrest⟩ := Option.bind_eq_some_iff.mp h
    obtain ⟨hc, hhold⟩ := ih (drawOne_within hbag hb hd) hrest
    exact ⟨hc, hhold.trans (drawOne_holdPiece hd)⟩

theorem Room.drawWord (hbag : IsBag full) {word : List PieceKind} {d : Nat} :
    ∀ {b c : BagPlacementState}, Within full b.bagRemainder → Room full b (word.length + d) →
      drawWord full b word = some c → Room full c d := by
  induction word with
  | nil =>
    rintro b c _ hroom ⟨⟩
    simpa using hroom
  | cons p word ih =>
    intro b c hb hroom h
    obtain ⟨e, he, hrest⟩ := Option.bind_eq_some_iff.mp h
    refine ih (drawOne_within hbag hb he) ?_ hrest
    refine Room.draw hbag hb ?_ he
    rwa [length_cons, Nat.add_right_comm] at hroom

end Draws

/-! ## The automaton, unpacked -/

/-- A step of the slot machine on a word that can be drawn. -/
def BagStep (full : PieceMultisetKey) (policy : HoldPolicy) (b : BagPlacementState) (p : PieceKind)
    (b' : BagPlacementState) : Prop :=
  ∃ word c, SlotStep policy b.holdPiece word p b'.holdPiece ∧ drawWord full b word = some c ∧
    b' = { c with holdPiece := b'.holdPiece }

/-- The branch that uses what is drawn… -/
def currentBranches (full : PieceMultisetKey) (policy : HoldPolicy) (b : BagPlacementState)
    (desired : PieceKind) : List BagSupplyBranch :=
  if policy = .required then []
  else (drawOne full b desired).toList.map fun c => ⟨desired, c, .current⟩

/-- …and those that go through the slot. -/
def heldBranches (full : PieceMultisetKey) (policy : HoldPolicy) (b : BagPlacementState)
    (desired : PieceKind) : List BagSupplyBranch :=
  if policy = .forbidden then []
  else
    match b.holdPiece with
    | some held =>
      if held = desired then
        standardTetrominoes.flatMap fun current =>
          (drawOne full b current).toList.map fun c =>
            ⟨desired, { c with holdPiece := some current }, .swapHeld⟩
      else []
    | none =>
      standardTetrominoes.flatMap fun current =>
        ((drawOne full b current).bind fun c => drawOne full c desired).toList.map fun c =>
          ⟨desired, { c with holdPiece := some current }, .storeCurrent⟩

/-- What `write_matching_branches` collects before it sorts. -/
def bagBranches (full : PieceMultisetKey) (policy : HoldPolicy) (b : BagPlacementState)
    (desired : PieceKind) : List BagSupplyBranch :=
  currentBranches full policy b desired ++ heldBranches full policy b desired

section Branches

variable {full : PieceMultisetKey} {policy : HoldPolicy} {b b' : BagPlacementState}
  {desired : PieceKind} {branch : BagSupplyBranch}

theorem drawWord_singleton (full : PieceMultisetKey) (b : BagPlacementState) (p : PieceKind) :
    drawWord full b [p] = drawOne full b p := by
  simp [drawWord]

theorem drawWord_pair (full : PieceMultisetKey) (b : BagPlacementState) (p q : PieceKind) :
    drawWord full b [p, q] = (drawOne full b p).bind fun c => drawOne full c q := by
  simp [drawWord]

/-- Every branch is a step… -/
theorem bagStep_of_mem_bagBranches (h : branch ∈ bagBranches full policy b desired) :
    branch.usedPiece = desired ∧ BagStep full policy b desired branch.nextState := by
  rw [bagBranches, mem_append] at h
  rcases h with h | h
  · rw [currentBranches] at h
    split at h
    · exact absurd h not_mem_nil
    · rename_i hreq
      obtain ⟨c, hc, rfl⟩ := mem_map.mp h
      rw [Option.mem_toList] at hc
      have hhold := drawOne_holdPiece hc
      refine ⟨rfl, [desired], c, ?_, by rw [drawWord_singleton]; exact hc, rfl⟩
      rw [hhold]
      exact .current _ desired hreq
  · rw [heldBranches] at h
    split at h
    · exact absurd h not_mem_nil
    · rename_i hf
      split at h
      · rename_i held hheld
        split at h
        · rename_i heq
          subst heq
          obtain ⟨current, -, h⟩ := mem_flatMap.mp h
          obtain ⟨c, hc, rfl⟩ := mem_map.mp h
          rw [Option.mem_toList] at hc
          refine ⟨rfl, [current], c, ?_, by rw [drawWord_singleton]; exact hc, rfl⟩
          rw [hheld]
          exact .swapHeld held current hf
        · exact absurd h not_mem_nil
      · rename_i hnone
        obtain ⟨current, -, h⟩ := mem_flatMap.mp h
        obtain ⟨c, hc, rfl⟩ := mem_map.mp h
        rw [Option.mem_toList] at hc
        refine ⟨rfl, [current, desired], c, ?_, by rw [drawWord_pair]; exact hc, rfl⟩
        rw [hnone]
        exact .storeCurrent current desired hf

/-- …and every step is a branch. -/
theorem exists_mem_bagBranches (h : BagStep full policy b desired b') :
    ∃ kind, (⟨desired, b', kind⟩ : BagSupplyBranch) ∈ bagBranches full policy b desired := by
  obtain ⟨word, c, hstep, hdraw, hb'⟩ := h
  generalize hb : b.holdPiece = hold at hstep
  generalize hb'' : b'.holdPiece = hold' at hstep hb'
  cases hstep with
  | current _ _ hreq =>
    rw [drawWord_singleton] at hdraw
    have hc : c = b' := by rw [hb', ← hb, ← drawOne_holdPiece hdraw]
    refine ⟨.current, mem_append_left _ ?_⟩
    rw [currentBranches, if_neg hreq, hdraw, hc]
    exact mem_singleton.mpr rfl
  | swapHeld _ p hf =>
    rw [drawWord_singleton] at hdraw
    refine ⟨.swapHeld, mem_append_right _ ?_⟩
    rw [heldBranches, if_neg hf, hb]
    dsimp only
    rw [if_pos rfl]
    refine mem_flatMap.mpr ⟨p, mem_standardTetrominoes p, ?_⟩
    rw [hdraw, hb']
    exact mem_singleton.mpr rfl
  | storeCurrent p _ hf =>
    rw [drawWord_pair] at hdraw
    refine ⟨.storeCurrent, mem_append_right _ ?_⟩
    rw [heldBranches, if_neg hf, hb]
    refine mem_flatMap.mpr ⟨p, mem_standardTetrominoes p, ?_⟩
    rw [hdraw, hb']
    exact mem_singleton.mpr rfl

end Branches

section Automaton

variable {a : BagPlacementAutomaton} {full : PieceMultisetKey} {b : BagPlacementState} {d : Nat}

section

variable (ha : a.inner.fullBag = some full) (hbag : IsBag full) (hb : Within full b.bagRemainder)
include ha hbag hb

theorem validateBagState_ok (hp : a.stateIdentity.holdPolicy = .forbidden → b.holdPiece = none) :
    a.inner.validateBagState (a.executionState b) = .ok () := by
  have hvalid : (a.executionState b).validate = .ok () := by
    rw [SupplyExecutionState.validate, if_neg]
    rintro (hne | ⟨hf, hsome⟩)
    · exact hne rfl
    · rw [show (a.executionState b).holdPiece = none from hp hf] at hsome
      simp at hsome
  have hdecode : decodeRemainder (a.executionState b).bagRemainderKey = .ok b.bagRemainder :=
    hb.decode hbag
  simp only [validateBagState, requireBag, ha, hvalid, hdecode, hb.exceedsBag, bind, Except.bind]
  exact refuseIf_of_not (by simp)

/-- With room for it, a draw of the automaton is the unpacked draw. -/
theorem drawBagPiece_ok (hroom : Room full b (d + 1)) (p : PieceKind) :
    a.inner.drawBagPiece (a.executionState b) p =
      .ok ((drawOne full b p).map a.executionState) := by
  obtain ⟨hcursor, hepoch⟩ := hroom
  have hdecode : decodeRemainder (a.executionState b).bagRemainderKey = .ok b.bagRemainder :=
    hb.decode hbag
  have hadvance : checkedAdvance (a.executionState b).cursor 1 = .ok (b.cursor + 1) := by
    rw [checkedAdvance, if_pos]
    · rfl
    · change b.cursor.toNat + 1 < _
      omega
  have hroom : b.bagRemainder.totalCount = 0 → b.bagEpoch.toNat + 1 < 2 ^ 16 := by
    intro hzero
    rw [hzero, Nat.sub_zero, refills_of_empty hbag.pos] at hepoch
    generalize (d - (full.totalCount - 1) + (full.totalCount - 1)) / full.totalCount = opened
      at hepoch
    omega
  have hepochs : drawEpoch (a.executionState b) b.bagRemainder =
      .ok (if b.bagRemainder.totalCount = 0 ∧ b.cursor ≠ 0 then b.bagEpoch + 1
        else b.bagEpoch) := by
    change (if b.bagRemainder.totalCount = 0 ∧ b.cursor ≠ 0 then _ else _) = _
    split
    · rename_i hzero
      exact if_pos (hroom hzero.1)
    · rfl
  rw [drawBagPiece, requireBag, ha]
  simp only [hdecode, hepochs, bind, Except.bind]
  rw [drawOne, refill]
  cases removePiece (if b.bagRemainder.totalCount = 0 then full else b.bagRemainder) p with
  | none => rfl
  | some r =>
    simp only [hadvance]
    rfl

variable {policy : HoldPolicy} {desired : PieceKind}

theorem currentSteps_ok (hroom : Room full b (d + 1)) (desired : PieceKind) :
    a.inner.currentSteps (a.executionState b) desired =
      .ok (if a.stateIdentity.holdPolicy = .required then []
        else (drawOne full b desired).toList.map fun c =>
          step (a.executionState b) (a.executionState c) desired desired none 1 .current) := by
  rw [currentSteps]
  change (if a.stateIdentity.holdPolicy = .required then _ else _) = _
  split
  · rfl
  · rw [drawBagPiece_ok ha hbag hb hroom]
    cases drawOne full b desired <;> rfl

theorem swapHeldStep_ok (hroom : Room full b (d + 1)) (desired current : PieceKind) :
    a.inner.swapHeldStep (a.executionState b) desired current =
      .ok ((drawOne full b current).toList.map fun c =>
        step (a.executionState b) (a.executionState { c with holdPiece := some current }) desired
          current none 1 .swapHeld) := by
  rw [swapHeldStep, drawBagPiece_ok ha hbag hb hroom]
  cases drawOne full b current <;> rfl

theorem storeCurrentStep_ok (hroom : Room full b (d + 2)) (desired current : PieceKind) :
    a.inner.storeCurrentStep (a.executionState b) desired current =
      .ok (((drawOne full b current).bind fun c => drawOne full c desired).toList.map fun c =>
        step (a.executionState b) (a.executionState { c with holdPiece := some current }) desired
          current (some desired) 2 .storeCurrent) := by
  rw [storeCurrentStep, drawBagPiece_ok ha hbag hb hroom]
  cases hc : drawOne full b current with
  | none => rfl
  | some c =>
    have hsecond := drawBagPiece_ok ha hbag (drawOne_within hbag hb hc)
      (Room.draw hbag hb hroom hc) desired
    simp only [bind, Except.bind, Option.map_some, hsecond, Option.bind_some]
    cases drawOne full c desired <;> rfl

end

theorem branchOf_step (hbag : IsBag full) {c : BagPlacementState}
    (hc : Within full c.bagRemainder) (before : SupplyExecutionState) (used current : PieceKind)
    (next : Option PieceKind) (advances : Nat) (kind : SupplyBranchKind) :
    branchOf (step before (a.executionState c) used current next advances kind) =
        .ok ⟨used, c, kind⟩ := by
  have hdecode : decodeRemainder (encodeRemainder c.bagRemainder) = .ok c.bagRemainder :=
    hc.decode hbag
  simp only [branchOf, compactState, step,
    executionState, hdecode, bind, Except.bind, pure, Except.pure]

/-- The branches of the steps after one draw or two. -/
theorem mapM_branchOf (hbag : IsBag full) {drawn : Option BagPlacementState}
    (hdrawn : ∀ c, drawn = some c → Within full c.bagRemainder)
    (slot : BagPlacementState → BagPlacementState)
    (hslot : ∀ c, (slot c).bagRemainder = c.bagRemainder) (before : SupplyExecutionState)
    (used current : PieceKind) (next : Option PieceKind) (advances : Nat)
    (kind : SupplyBranchKind) : (drawn.toList.map fun c =>
        step before (a.executionState (slot c)) used current next advances kind).mapM
      branchOf = .ok (drawn.toList.map fun c => ⟨used, slot c, kind⟩) := by
  cases drawn with
  | none => rfl
  | some c =>
    have hc : Within full (slot c).bagRemainder := by
      rw [hslot]
      exact hdrawn c rfl
    simp only [Option.toList_some, map_cons, map_nil, mapM_cons, mapM_nil, branchOf_step hbag hc]
    rfl

theorem holdState_executionState (a : BagPlacementAutomaton) (b : BagPlacementState) :
    (a.executionState b).holdState =
      if a.stateIdentity.holdPolicy = .forbidden then .disabled
      else
        match b.holdPiece with
        | some held => .occupied held
        | none => .empty := by
  unfold SupplyExecutionState.holdState executionState
  dsimp only
  cases a.stateIdentity.holdPolicy with
  | forbidden => rfl
  | allowed | required => cases b.holdPiece <;> rfl

/-- What a step of the automaton is: a step of the slot machine on a word the bag gave. -/
def TakenBy (a : BagPlacementAutomaton) (full : PieceMultisetKey) (b : BagPlacementState)
    (desired : PieceKind) (taken : SupplyExecutionStep) : Prop :=
  ∃ word c hold, SlotStep a.stateIdentity.holdPolicy b.holdPiece word desired hold ∧
    drawWord full b word = some c ∧ taken.nextState = a.executionState { c with holdPiece := hold } ∧
    taken.evidence.queueAdvances = word.length

theorem heldSteps_ok (ha : a.inner.fullBag = some full) (hbag : IsBag full)
    (hb : Within full b.bagRemainder) (hroom : Room full b 1)
    (hroom' : a.stateIdentity.holdPolicy ≠ .forbidden → b.holdPiece = none → Room full b 2)
    (desired : PieceKind) :
    ∃ held, a.inner.heldSteps (a.executionState b) desired = .ok held ∧
      held.flatten.mapM branchOf =
        .ok (heldBranches full a.stateIdentity.holdPolicy b desired) ∧
      ∀ taken ∈ held.flatten, TakenBy a full b desired taken := by
  rw [heldSteps, holdState_executionState, heldBranches]
  by_cases hf : a.stateIdentity.holdPolicy = .forbidden
  · rw [if_pos hf, if_pos hf]
    exact ⟨[], rfl, rfl, by simp⟩
  · rw [if_neg hf, if_neg hf]
    cases hhold : b.holdPiece with
    | some held =>
      dsimp only
      split
      · rename_i hheld
        rw [mapM_eq_ok_map fun current _ => swapHeldStep_ok ha hbag hb hroom desired current]
        refine ⟨_, rfl, ?_⟩
        rw [← flatMap_def]
        refine ⟨mapM_flatMap_ok fun current _ =>
          mapM_branchOf hbag (fun c hc => drawOne_within hbag hb hc)
            (fun c => { c with holdPiece := some current }) (fun _ => rfl) _ _ _ _ _ _, ?_⟩
        intro taken htaken
        obtain ⟨current, -, htaken⟩ := mem_flatMap.mp htaken
        obtain ⟨c, hc, rfl⟩ := mem_map.mp htaken
        refine ⟨[current], c, some current, ?_, ?_, rfl, rfl⟩
        · rw [hhold, ← hheld]
          exact .swapHeld held current hf
        · rw [drawWord_singleton]
          exact Option.mem_toList.mp hc
      · exact ⟨[], rfl, rfl, by simp⟩
    | none =>
      dsimp only
      rw [mapM_eq_ok_map fun current _ =>
        storeCurrentStep_ok ha hbag hb (hroom' hf hhold) desired current]
      refine ⟨_, rfl, ?_⟩
      rw [← flatMap_def]
      constructor
      · refine mapM_flatMap_ok fun current _ =>
          mapM_branchOf hbag (fun c hc => ?_) (fun c => { c with holdPiece := some current })
            (fun _ => rfl) _ _ _ _ _ _
        obtain ⟨e, he, hc⟩ := Option.bind_eq_some_iff.mp hc
        exact drawOne_within hbag (drawOne_within hbag hb he) hc
      · intro taken htaken
        obtain ⟨current, -, htaken⟩ := mem_flatMap.mp htaken
        obtain ⟨c, hc, rfl⟩ := mem_map.mp htaken
        refine ⟨[current, desired], c, some current, ?_, ?_, rfl, rfl⟩
        · rw [hhold]
          exact .storeCurrent current desired hf
        · rw [drawWord_pair]
          exact Option.mem_toList.mp hc

/-- **The branches of the automaton are the unpacked ones**, as long as there is room for one
    draw, and for a second one where the slot may be filled. -/
theorem writeMatchingBranches_ok (ha : a.inner.fullBag = some full) (hbag : IsBag full)
    (hb : Within full b.bagRemainder)
    (hp : a.stateIdentity.holdPolicy = .forbidden → b.holdPiece = none) (hroom : Room full b 1)
    (hroom' : a.stateIdentity.holdPolicy ≠ .forbidden → b.holdPiece = none → Room full b 2)
    (desired : PieceKind) :
    a.writeMatchingBranches b desired =
      .ok (sortDedup (bagBranches full a.stateIdentity.holdPolicy b desired)) := by
  obtain ⟨held, hheld, hheldBranches, -⟩ := heldSteps_ok ha hbag hb hroom hroom' desired
  have hused : (if a.stateIdentity.holdPolicy = .required then []
      else (drawOne full b desired).toList.map fun c =>
        step (a.executionState b) (a.executionState c) desired desired none 1 .current).mapM
      branchOf =
        .ok (currentBranches full a.stateIdentity.holdPolicy b desired) := by
    rw [currentBranches]
    split
    · rfl
    · exact mapM_branchOf hbag (fun c hc => drawOne_within hbag hb hc) id (fun _ => rfl)
        _ _ _ _ _ _
  rw [writeMatchingBranches, forEachMatchingBagStep, validateBagState_ok ha hbag hb hp,
    currentSteps_ok ha hbag hb hroom, hheld]
  simp only [bind, Except.bind, pure, Except.pure, mapM_append_ok hused hheldBranches]
  rfl

end Automaton

end Clearra.Proof.Supply
