import Mathlib.Algebra.Order.Floor.Ring
import Mathlib.Data.Int.Log
import Mathlib.Data.Rat.Floor
import Mathlib.Tactic

/-!
# Binary floating point

The 53-bit number nearest to a non-negative rational, the even one of two (`binary64`). Arithmetic on
`f64` is exact arithmetic followed by this rounding, as long as no result is too large or too small;
the exponent is not bounded here.

What is proved is what bounds a computation: rounding is monotone, keeps numbers with few bits, and
errs by at most half a unit in the last place.
-/

namespace Clearra.Lib

open Int

/-- The nearest integer, the even one of two. -/
def roundEven (x : ℚ) : ℤ :=
  if x - ⌊x⌋ < 1 / 2 ∨ x - ⌊x⌋ = 1 / 2 ∧ ⌊x⌋ % 2 = 0 then ⌊x⌋ else ⌊x⌋ + 1

theorem roundEven_error (x : ℚ) : |(roundEven x : ℚ) - x| ≤ 1 / 2 := by
  have hfloor := floor_le x
  have hlt := lt_floor_add_one x
  rw [roundEven, abs_le]
  split
  · rename_i h
    constructor <;> rcases h with h | ⟨h, -⟩ <;> linarith
  · rename_i h
    have hge : 1 / 2 ≤ x - ⌊x⌋ := not_lt.mp fun hlt => h (Or.inl hlt)
    push_cast
    constructor <;> linarith

theorem roundEven_le (x : ℚ) : roundEven x ≤ ⌊x⌋ + 1 := by
  rw [roundEven]
  split <;> omega

theorem floor_le_roundEven (x : ℚ) : ⌊x⌋ ≤ roundEven x := by
  rw [roundEven]
  split <;> omega

theorem roundEven_mono {x y : ℚ} (h : x ≤ y) : roundEven x ≤ roundEven y := by
  rcases (floor_mono h).lt_or_eq with hlt | heq
  · have hx := roundEven_le x
    have hy := floor_le_roundEven y
    omega
  · -- in one unit interval `x` rounds up only if `y` does
    rw [roundEven, roundEven, heq]
    split
    · split <;> omega
    · rename_i hx
      rw [if_neg]
      rintro (hy | ⟨hy, heven⟩)
      · exact hx (Or.inl (by linarith))
      · rcases h.lt_or_eq with hlt | rfl
        · exact hx (Or.inl (by linarith))
        · exact hx (Or.inr ⟨hy, heven⟩)

theorem roundEven_intCast (n : ℤ) : roundEven n = n := by
  rw [roundEven, floor_intCast, if_pos (Or.inl (by norm_num))]

/-- The unit in the last place. -/
def ulp (x : ℚ) : ℚ := 2 ^ (Int.log 2 x - 52)

/-- The nearest `f64`. -/
def binary64 (x : ℚ) : ℚ := roundEven (x / ulp x) * ulp x

theorem ulp_pos (x : ℚ) : 0 < ulp x := zpow_pos two_pos _

theorem ulp_le {x : ℚ} {k : ℤ} (hpos : 0 < x) (h : x < 2 ^ (k + 1)) : ulp x ≤ 2 ^ (k - 52) := by
  have hlog : Int.log 2 x < k + 1 := (lt_zpow_iff_log_lt one_lt_two hpos).mp (by exact_mod_cast h)
  exact zpow_le_zpow_right₀ one_le_two (by omega)

theorem ulp_le_mul {x : ℚ} (hpos : 0 < x) : ulp x ≤ x * 2 ^ (-52 : ℤ) := by
  have hlog : (2 : ℚ) ^ Int.log 2 x ≤ x := by
    exact_mod_cast zpow_log_le_self one_lt_two hpos
  rw [ulp, sub_eq_add_neg, zpow_add₀ two_ne_zero]
  exact mul_le_mul_of_nonneg_right hlog (zpow_pos two_pos _).le

theorem binary64_zero : binary64 0 = 0 := by
  rw [binary64, zero_div, ← cast_zero, roundEven_intCast, cast_zero, zero_mul]

theorem binary64_error (x : ℚ) : |binary64 x - x| ≤ ulp x / 2 := by
  have hulp := ulp_pos x
  have hsplit : binary64 x - x = (roundEven (x / ulp x) - x / ulp x) * ulp x := by
    rw [binary64, sub_mul, div_mul_cancel₀ x hulp.ne']
  rw [hsplit, abs_mul, abs_of_pos hulp]
  calc |(roundEven (x / ulp x) : ℚ) - x / ulp x| * ulp x
      ≤ 1 / 2 * ulp x := mul_le_mul_of_nonneg_right (roundEven_error _) hulp.le
    _ = ulp x / 2 := by ring

theorem binary64_error_of_lt {x : ℚ} {k : ℤ} (hnonneg : 0 ≤ x) (h : x < 2 ^ (k + 1)) :
    |binary64 x - x| ≤ 2 ^ (k - 53) := by
  rcases hnonneg.eq_or_lt with rfl | hpos
  · rw [binary64_zero, sub_zero, abs_zero]
    exact (zpow_pos two_pos _).le
  · have hhalf : (2 : ℚ) ^ (k - 53) = 2 ^ (k - 52) / 2 := by
      rw [show k - 52 = k - 53 + 1 by ring, zpow_add_one₀ two_ne_zero]
      ring
    rw [hhalf]
    exact (binary64_error x).trans (by linarith [ulp_le hpos h])

theorem binary64_error_mul {x : ℚ} (hpos : 0 < x) : |binary64 x - x| ≤ x * 2 ^ (-53 : ℤ) := by
  have hhalf : (2 : ℚ) ^ (-53 : ℤ) = 2 ^ (-52 : ℤ) / 2 := by norm_num
  rw [hhalf, ← mul_div_assoc]
  exact (binary64_error x).trans (div_le_div_of_nonneg_right (ulp_le_mul hpos) zero_le_two)

/-- A number with few bits is its own nearest. -/
theorem binary64_exact {m : ℕ} (hm : m < 2 ^ 53) (j : ℤ) : binary64 (m * 2 ^ j) = m * 2 ^ j := by
  rcases Nat.eq_zero_or_pos m with rfl | hmpos
  · rw [Nat.cast_zero, zero_mul, binary64_zero]
  · have hpos : (0 : ℚ) < m * 2 ^ j := mul_pos (Nat.cast_pos.mpr hmpos) (zpow_pos two_pos _)
    have hlt : (m * 2 ^ j : ℚ) < 2 ^ (53 + j) := by
      rw [zpow_add₀ two_ne_zero]
      exact mul_lt_mul_of_pos_right (by exact_mod_cast hm) (zpow_pos two_pos _)
    have hlog : Int.log 2 (m * 2 ^ j : ℚ) < 53 + j :=
      (lt_zpow_iff_log_lt one_lt_two hpos).mp (by exact_mod_cast hlt)
    obtain ⟨k, hk⟩ : ∃ k : ℕ, j = Int.log 2 (m * 2 ^ j : ℚ) - 52 + k :=
      ⟨(j - (Int.log 2 (m * 2 ^ j : ℚ) - 52)).toNat, by omega⟩
    have hint : (m * 2 ^ j : ℚ) / ulp (m * 2 ^ j) = ((m * 2 ^ k : ℤ) : ℚ) := by
      rw [div_eq_iff (ulp_pos _).ne', ulp]
      conv_lhs => rw [hk, zpow_add₀ two_ne_zero, zpow_natCast]
      push_cast
      ring
    rw [binary64, hint, roundEven_intCast, ← hint, div_mul_cancel₀ _ (ulp_pos _).ne']

theorem binary64_natCast {m : ℕ} (hm : m < 2 ^ 53) : binary64 m = m := by
  simpa using binary64_exact hm 0

theorem binary64_two_zpow (j : ℤ) : binary64 (2 ^ j) = 2 ^ j := by
  simpa using binary64_exact (m := 1) (by norm_num) j

theorem binary64_one : binary64 1 = 1 := by simpa using binary64_two_zpow 0

/-- Rounding stays between the powers of two around a number. -/
theorem zpow_log_le_binary64 {x : ℚ} (hpos : 0 < x) : (2 : ℚ) ^ Int.log 2 x ≤ binary64 x := by
  have hulp := ulp_pos x
  have hscale : (2 : ℚ) ^ Int.log 2 x = ((2 ^ 52 : ℤ) : ℚ) * ulp x := by
    rw [ulp, sub_eq_add_neg, zpow_add₀ two_ne_zero]
    norm_num
    ring
  have hlog : (2 : ℚ) ^ Int.log 2 x ≤ x := by
    exact_mod_cast zpow_log_le_self one_lt_two hpos
  rw [hscale] at hlog ⊢
  rw [binary64]
  refine mul_le_mul_of_nonneg_right (cast_le.mpr ?_) hulp.le
  rw [← roundEven_intCast (2 ^ 52)]
  exact roundEven_mono ((le_div_iff₀ hulp).mpr hlog)

theorem binary64_le_zpow_log (x : ℚ) : binary64 x ≤ 2 ^ (Int.log 2 x + 1) := by
  have hulp := ulp_pos x
  have hscale : (2 : ℚ) ^ (Int.log 2 x + 1) = ((2 ^ 53 : ℤ) : ℚ) * ulp x := by
    rw [ulp, sub_eq_add_neg, zpow_add₀ two_ne_zero, zpow_add₀ two_ne_zero]
    norm_num
    ring
  have hlog : x ≤ 2 ^ (Int.log 2 x + 1) := by
    exact_mod_cast (lt_zpow_succ_log_self one_lt_two x).le
  rw [hscale] at hlog ⊢
  rw [binary64]
  refine mul_le_mul_of_nonneg_right (cast_le.mpr ?_) hulp.le
  rw [← roundEven_intCast (2 ^ 53)]
  exact roundEven_mono ((div_le_iff₀ hulp).mpr hlog)

theorem binary64_nonneg {x : ℚ} (h : 0 ≤ x) : 0 ≤ binary64 x := by
  rcases h.eq_or_lt with rfl | hpos
  · exact binary64_zero.ge
  · exact (zpow_pos two_pos _).le.trans (zpow_log_le_binary64 hpos)

theorem binary64_mono {x y : ℚ} (hx : 0 ≤ x) (h : x ≤ y) : binary64 x ≤ binary64 y := by
  rcases hx.eq_or_lt with rfl | hpos
  · exact binary64_zero.trans_le (binary64_nonneg h)
  · rcases (log_mono_right (b := 2) hpos h).lt_or_eq with hlt | heq
    · calc binary64 x ≤ 2 ^ (Int.log 2 x + 1) := binary64_le_zpow_log x
        _ ≤ 2 ^ Int.log 2 y := zpow_le_zpow_right₀ one_le_two (by omega)
        _ ≤ binary64 y := zpow_log_le_binary64 (hpos.trans_le h)
    · have hulp : ulp x = ulp y := by rw [ulp, ulp, heq]
      rw [binary64, binary64, hulp]
      exact mul_le_mul_of_nonneg_right (cast_le.mpr (roundEven_mono
        (div_le_div_of_nonneg_right h (ulp_pos y).le))) (ulp_pos y).le

/-- Half a unit above one goes down. -/
theorem binary64_one_add_half : binary64 (1 + 2 ^ (-53 : ℤ)) = 1 := by
  have hlog : Int.log 2 (1 + 2 ^ (-53 : ℤ) : ℚ) = 0 := by
    have hge : 0 ≤ Int.log 2 (1 + 2 ^ (-53 : ℤ) : ℚ) :=
      (zpow_le_iff_le_log one_lt_two (by norm_num)).mp (by norm_num)
    have hlt : Int.log 2 (1 + 2 ^ (-53 : ℤ) : ℚ) < 1 :=
      (lt_zpow_iff_log_lt one_lt_two (by norm_num)).mp (by norm_num)
    omega
  rw [binary64, ulp, hlog, roundEven]
  norm_num

end Clearra.Lib
