import Clearra.Lib.Bits
import Clearra.Supply.ObservedSpace

/-!
# Places in a bag, and the queues that go on from them

A place is how far a queue has come in the current bag and which pieces of the bag it has had. From a
place, `suffixes` lists the queues of a given length that go on, in the order of the pieces. Their
number depends on the offset and on how many pieces are gone only, and is the product that
`count_from_state` computes.
-/

namespace Clearra.Proof.Supply

open Clearra.Supply BitVec Nat Bool List Option

/-- How many pieces of the bag are gone, those before the queue starts included, and which ones the
    queue itself has had. -/
structure Place where
  offset : Nat
  used : UsedMask

namespace Place

/-- At the end of a bag the next one begins. -/
def turn (s : Place) : Place := if s.offset = 7 then ⟨0, 0⟩ else s

def has (s : Place) (piece : PieceKind) : Bool := s.used.getLsbD piece.index

def draw (s : Place) (piece : PieceKind) : Place := ⟨s.offset + 1, s.used ||| pieceBit piece⟩

/-- The place after one more piece, unless the bag has had it. -/
def step (s : Place) (piece : PieceKind) : Option Place :=
  if s.turn.has piece then none else some (s.turn.draw piece)

/-- The place after a queue. -/
def walk (s : Place) (pieces : List PieceKind) : Option Place := pieces.foldlM step s

/-- A place a queue can be at: no more pieces had than gone, and none that does not exist. -/
structure Sound (s : Place) : Prop where
  offset_le : s.offset ≤ 7
  count_le : Executor.countOnes s.used ≤ s.offset
  seven : s.used.getLsbD 7 = false

end Place

/-- The queues of length `n` that go on. -/
def suffixes : Nat → Place → List (List PieceKind)
  | 0, _ => [[]]
  | n + 1, s => PieceKind.standardTetrominoes.flatMap fun piece =>
      if s.turn.has piece then [] else (suffixes n (s.turn.draw piece)).map (piece :: ·)

/-! ## Masks -/

theorem and_pieceBit_ne_zero (used : UsedMask) (piece : PieceKind) :
    used &&& pieceBit piece ≠ 0 ↔ used.getLsbD piece.index = true :=
  Lib.and_one_shiftLeft_ne_zero_iff

theorem getLsbD_or_pieceBit (used : UsedMask) (piece other : PieceKind) :
    (used ||| pieceBit piece).getLsbD other.index =
      (used.getLsbD other.index || decide (other = piece)) := by
  rw [getLsbD_or]
  congr 1
  cases piece <;> cases other <;> decide

theorem countOnes_or_pieceBit : ∀ (used : UsedMask) (piece : PieceKind),
    used.getLsbD piece.index = false →
      Executor.countOnes (used ||| pieceBit piece) = Executor.countOnes used + 1 := by
  intro used piece
  revert used
  cases piece <;> decide +kernel

theorem countP_free : ∀ used : UsedMask, used.getLsbD 7 = false →
    PieceKind.standardTetrominoes.countP (fun piece => !used.getLsbD piece.index) =
      7 - Executor.countOnes used := by
  decide +kernel

namespace Place

variable {s : Place}

theorem sound_initial {offset : Nat} (h : offset ≤ 7) : Sound ⟨offset, 0⟩ := by
  have hzero : Executor.countOnes (0 : UsedMask) = 0 := by decide
  exact ⟨h, hzero.trans_le (Nat.zero_le offset), getLsbD_zero⟩

theorem Sound.turn (h : s.Sound) : s.turn.Sound ∧ s.turn.offset < 7 := by
  rw [Place.turn]
  split
  · exact ⟨sound_initial (Nat.zero_le 7), zero_lt_succ 6⟩
  · rename_i hne
    exact ⟨h, Nat.lt_of_le_of_ne h.offset_le hne⟩

theorem Sound.draw (h : s.Sound) (hlt : s.offset < 7) {piece : PieceKind}
    (hfree : s.has piece = false) : (s.draw piece).Sound := by
  refine ⟨hlt, ?_, ?_⟩
  · have hcount := h.count_le
    rw [Place.draw, countOnes_or_pieceBit _ _ hfree]
    exact succ_le_succ hcount
  · rw [Place.draw, getLsbD_or, h.seven]
    cases piece <;> rfl

theorem Sound.step (h : s.Sound) {piece : PieceKind} {t : Place} (hstep : s.step piece = some t) :
    t.Sound := by
  rw [Place.step] at hstep
  split at hstep
  · simp at hstep
  · rename_i hfree
    cases hstep
    exact h.turn.1.draw h.turn.2 (eq_false_iff.mpr hfree)

theorem Sound.walk (h : s.Sound) {pieces : List PieceKind} {t : Place}
    (hwalk : s.walk pieces = some t) : t.Sound := by
  induction pieces generalizing s with
  | nil => exact Option.some.inj hwalk ▸ h
  | cons piece pieces ih =>
    rw [Place.walk, foldlM_cons, bind_eq_bind, bind_eq_some_iff] at hwalk
    obtain ⟨next, hnext, hrest⟩ := hwalk
    exact ih (h.step hnext) hrest

theorem walk_append (s : Place) (pieces : List PieceKind) (piece : PieceKind) :
    s.walk (pieces ++ [piece]) = (s.walk pieces).bind fun t => t.step piece := by
  rw [Place.walk, foldlM_append, Place.walk]
  simp only [foldlM_cons, foldlM_nil, bind_pure]
  rfl

end Place

/-! ## Counting -/

/-- How many queues go on from an offset with `u` pieces had. -/
def number : Nat → Nat → Nat → Nat
  | 0, _, _ => 1
  | n + 1, offset, u => if offset = 7 then 7 * number n 1 1 else (7 - u) * number n (offset + 1) (u + 1)

theorem sum_map_ite {α : Type} (l : List α) (p : α → Bool) (n : Nat) :
    (l.map fun a => if p a then 0 else n).sum = l.countP (fun a => !p a) * n := by
  induction l with
  | nil => simp
  | cons a l ih =>
    rw [map_cons, sum_cons, ih, countP_cons]
    cases p a
    · simp only [false_eq_true, if_false, Bool.not_false, if_true]
      ring
    · simp

theorem length_suffixes {n : Nat} {s : Place} (h : s.Sound) :
    (suffixes n s).length = number n s.offset (Executor.countOnes s.used) := by
  induction n generalizing s with
  | zero => rfl
  | succ n ih =>
    obtain ⟨hturn, hlt⟩ := h.turn
    have hbranch : ∀ piece : PieceKind,
        (if s.turn.has piece then [] else (suffixes n (s.turn.draw piece)).map (piece :: ·)).length =
          if s.turn.has piece then 0
          else number n (s.turn.offset + 1) (Executor.countOnes s.turn.used + 1) := by
      intro piece
      split
      · rfl
      · rename_i hfree
        have hfree := eq_false_iff.mpr hfree
        rw [length_map, ih (hturn.draw hlt hfree), Place.draw, countOnes_or_pieceBit _ _ hfree]
    rw [suffixes, length_flatMap]
    simp only [hbranch]
    rw [sum_map_ite, number]
    simp only [Place.has]
    rw [countP_free _ hturn.seven, Place.turn]
    split
    · rfl
    · rfl

/-- One partial bag, and then whole ones. -/
theorem number_eq {n offset u : Nat} (hu : u ≤ offset) (hoffset : offset ≤ 7) :
    number n offset u =
      (7 - u).descFactorial (min n (7 - offset)) * number (n - min n (7 - offset)) 0 0 := by
  induction n generalizing offset u with
  | zero => simp [number]
  | succ n ih =>
    rw [number]
    split
    · rename_i h
      simp [h, number]
    · obtain ⟨left, hleft⟩ : ∃ left, 7 - u = left + 1 := ⟨6 - u, by omega⟩
      obtain ⟨slots, hslots⟩ : ∃ slots, 7 - offset = slots + 1 := ⟨6 - offset, by omega⟩
      rw [ih (by omega) (by omega), hleft, hslots, Nat.add_min_add_right,
        succ_descFactorial_succ, Nat.add_sub_add_right]
      rw [show 7 - (u + 1) = left by omega, show 7 - (offset + 1) = slots by omega, Nat.mul_assoc]

theorem number_aligned (n : Nat) :
    number n 0 0 = fullBagPermutations ^ (n / 7) * Nat.descFactorial 7 (n % 7) := by
  induction n using Nat.strong_induction_on with
  | _ n ih =>
    rw [number_eq (Nat.le_refl 0) (Nat.zero_le 7)]
    by_cases hlt : n < 7
    · rw [Nat.min_eq_left (by omega), Nat.sub_self, div_eq_of_lt hlt, mod_eq_of_lt hlt]
      simp [number]
    · obtain ⟨k, rfl⟩ := Nat.exists_eq_add_of_le (Nat.le_of_not_lt hlt)
      rw [Nat.min_eq_right (by omega), Nat.sub_zero, Nat.add_sub_cancel_left, ih k (by omega),
        add_div_left k (by decide), add_mod_left, Nat.pow_succ', Nat.mul_assoc]
      rfl

/-! ## The checked product -/

/-- A number, if it fits. -/
def fitting (n : Nat) : Option Nat := if n ≤ u128Max then some n else none

theorem checkedFallingFactorial_eq {value count : Nat} (hvalue : value ≤ 7) (hcount : count ≤ 7) :
    checkedFallingFactorial value count = some (value.descFactorial count) := by
  have hall : ∀ value ≤ 7, ∀ count ≤ 7,
      checkedFallingFactorial value count = some (value.descFactorial count) := by decide
  exact hall value hvalue count hcount

/-- A product of positive factors that fits never overflows on the way. -/
theorem checkedMulU128_fitting {a b : Nat} (hb : 0 < b) :
    (fitting a).bind (checkedMulU128 · b) = fitting (a * b) := by
  rw [fitting, fitting]
  split
  · rfl
  · rename_i hbig
    rw [bind_none, if_neg]
    have hle := Nat.le_mul_of_pos_right a hb
    omega

theorem foldlM_fullBags (k : Nat) :
    (List.range k).foldlM (fun count _ => checkedMulU128 count fullBagPermutations) 1 =
      fitting (fullBagPermutations ^ k) := by
  induction k with
  | zero => rfl
  | succ k ih =>
    rw [range_succ, foldlM_append, ih, Nat.pow_succ, ← checkedMulU128_fitting (by decide)]
    simp only [foldlM_cons, foldlM_nil, bind_pure]
    rfl

theorem number_pos {n offset u : Nat} (hu : u ≤ offset) (hoffset : offset ≤ 7) :
    0 < number n offset u := by
  have haligned : 0 < number (n - min n (7 - offset)) 0 0 := by
    rw [number_aligned]
    refine Nat.mul_pos (Nat.pow_pos (by decide)) (descFactorial_pos.mpr ?_)
    exact (mod_lt _ (by decide)).le
  rw [number_eq hu hoffset]
  refine Nat.mul_pos (descFactorial_pos.mpr ?_) haligned
  omega

theorem alignedSuffixCount_eq (n : Nat) : alignedSuffixCount n = fitting (number n 0 0) := by
  have htail : 0 < Nat.descFactorial 7 (n % 7) :=
    descFactorial_pos.mpr (mod_lt _ (by decide)).le
  rw [alignedSuffixCount, observedBagSize, foldlM_fullBags,
    checkedFallingFactorial_eq (Nat.le_refl 7) (mod_lt _ (by decide)).le, number_aligned,
    ← checkedMulU128_fitting htail]
  rfl

theorem normalizedState_eq {s : Place} (h : s.Sound) :
    normalizedState s.offset s.used = .ok (s.turn.offset, s.turn.used) := by
  have hle := h.offset_le
  rw [normalizedState, observedBagSize, Place.turn]
  split
  · rfl
  · rw [if_pos (by omega)]

theorem checkedSub_eq {a b : Nat} (h : b ≤ a) : checkedSub a b = some (a - b) := if_pos h

theorem countFromState_eq {n : Nat} {s : Place} (h : s.Sound) :
    countFromState n s.offset s.used = fitting (suffixes n s).length := by
  obtain ⟨hturn, hlt⟩ := h.turn
  rw [length_suffixes h, countFromState]
  split
  · rename_i hzero
    subst hzero
    rfl
  · rename_i hne
    have hones : Executor.countOnes s.turn.used ≤ 7 := hturn.count_le.trans hturn.offset_le
    have hnumber : number n s.offset (Executor.countOnes s.used) =
        number n s.turn.offset (Executor.countOnes s.turn.used) := by
      obtain ⟨m, rfl⟩ := exists_eq_succ_of_ne_zero hne
      rw [Place.turn]
      split
      · rename_i hseven
        rw [hseven]
        rfl
      · rfl
    have hprefix : 0 < (7 - Executor.countOnes s.turn.used).descFactorial
        (min n (7 - s.turn.offset)) := by
      have hcount := hturn.count_le
      refine descFactorial_pos.mpr ?_
      omega
    rw [hnumber, number_eq hturn.count_le hturn.offset_le, Nat.mul_comm,
      ← checkedMulU128_fitting hprefix, ← alignedSuffixCount_eq, normalizedState_eq h]
    simp only [Except.toOption, observedBagSize, checkedSub_eq hturn.offset_le, checkedSub_eq hones,
      bind_eq_bind, bind_some]
    rw [checkedFallingFactorial_eq (by omega) (by omega)]
    simp only [bind_some, checkedMulU128, Nat.mul_comm]

theorem suffixes_ne_nil {n : Nat} {s : Place} (h : s.Sound) : suffixes n s ≠ [] := by
  have hpos := number_pos (n := n) h.count_le h.offset_le
  rw [← length_suffixes h] at hpos
  exact ne_nil_of_length_pos hpos

end Clearra.Proof.Supply
