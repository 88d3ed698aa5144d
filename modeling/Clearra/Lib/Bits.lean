import Mathlib

/-!
# Machine words read as sets

A word is a set of bit positions; the three ways the source tests or builds one are read here as
statements about membership, and everything above goes through `getLsbD` only.
-/

namespace Clearra.Lib

open Nat List

variable {w : Nat}

theorem getLsbD_one_shiftLeft (w i k : Nat) : (1#w <<< i).getLsbD k = decide (k = i ∧ k < w) := by
  rw [BitVec.getLsbD_shiftLeft, BitVec.getLsbD_one]
  by_cases hk : k < w
  · by_cases hi : k < i
    · have : k ≠ i := by omega
      simp [hk, hi, this]
    · by_cases he : k = i
      · subst he
        simp [hk]
        omega
      · have : ¬k - i = 0 := by omega
        simp [hk, hi, he, this]
  · simp [hk]

theorem and_eq_zero_iff {x y : BitVec w} :
    x &&& y = 0#w ↔ ∀ k, x.getLsbD k = true → y.getLsbD k = true → False := by
  constructor
  · intro h k hx hy
    have hbit : (x &&& y).getLsbD k = true := by rw [BitVec.getLsbD_and, hx, hy]; rfl
    rw [h] at hbit
    simp at hbit
  · intro h
    refine BitVec.eq_of_getLsbD_eq fun k _ => ?_
    rw [BitVec.getLsbD_and, BitVec.getLsbD_zero, Bool.and_eq_false_iff]
    by_contra hne
    rw [not_or, Bool.not_eq_false, Bool.not_eq_false] at hne
    exact h k hne.1 hne.2

theorem and_one_shiftLeft_ne_zero_iff {x : BitVec w} {i : Nat} :
    x &&& (1#w <<< i) ≠ 0#w ↔ x.getLsbD i = true := by
  constructor
  · intro h
    by_contra hi
    refine h (and_eq_zero_iff.mpr fun k hx hk => ?_)
    rw [getLsbD_one_shiftLeft, decide_eq_true_eq] at hk
    rw [hk.1] at hx
    exact hi hx
  · intro hi h
    refine and_eq_zero_iff.mp h i hi ?_
    rw [getLsbD_one_shiftLeft, decide_eq_true_eq]
    exact ⟨rfl, BitVec.lt_of_getLsbD hi⟩

theorem getLsbD_one_shiftLeft_sub_one {n : Nat} (hn : n < w) (k : Nat) :
    ((1#w <<< n) - 1#w).getLsbD k = decide (k < n) := by
  have hw : 0 < w := by omega
  have hone : (1#w).toNat = 1 := by
    rw [BitVec.toNat_ofNat, mod_eq_of_lt (Nat.one_lt_two_pow (by omega))]
  have hpow : 2 ^ n < 2 ^ w := Nat.pow_lt_pow_right (by omega) hn
  have hpos : 0 < 2 ^ n := Nat.two_pow_pos n
  have hshift : (1#w <<< n).toNat = 2 ^ n := by
    rw [BitVec.toNat_shiftLeft, hone, shiftLeft_eq, Nat.one_mul, mod_eq_of_lt hpow]
  have hnat : ((1#w <<< n) - 1#w).toNat = 2 ^ n - 1 := by
    rw [BitVec.toNat_sub, hone, hshift,
      show 2 ^ w - 1 + 2 ^ n = (2 ^ n - 1) + 2 ^ w by omega, add_mod_right,
      mod_eq_of_lt (by omega)]
  rw [← BitVec.testBit_toNat, hnat, testBit_two_pow_sub_one]

theorem getLsbD_foldl_or {α : Type} (f : α → BitVec w) (p : α → Bool) (k : Nat) :
    ∀ (l : List α) (init : BitVec w),
      (l.foldl (fun m a => if p a then m ||| f a else m) init).getLsbD k = true ↔
        init.getLsbD k = true ∨ ∃ a ∈ l, p a = true ∧ (f a).getLsbD k = true := by
  intro l
  induction l with
  | nil => intro init; simp
  | cons a rest ih =>
    intro init
    rw [foldl_cons, ih]
    by_cases hp : p a = true
    · rw [if_pos hp, BitVec.getLsbD_or, Bool.or_eq_true]
      simp only [mem_cons, exists_eq_or_imp, hp, true_and, or_assoc]
    · rw [if_neg hp]
      simp only [mem_cons, exists_eq_or_imp, hp, false_and, false_or, Bool.false_eq_true]

theorem countP_range_eq_count (p : Nat → Bool) (n : Nat) :
    (List.range n).countP p = Nat.count (fun k => p k = true) n := by
  induction n with
  | zero => rfl
  | succ n ih =>
    rw [range_succ, countP_append, ih, count_succ, countP_singleton]

end Clearra.Lib
