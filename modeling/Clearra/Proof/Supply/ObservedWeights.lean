import Clearra.Supply.ObservedExpansion

/-!
# The probabilities of an expansion pass their checks

Every pattern gets the rounded `1 / total`, and the last of a complete list what is left of one. Each
of these is between zero and one, and their rounded sum exceeds one by less than the tolerance, however
many there are: with fewer than `2 ^ 53` patterns every addition errs by at most `2 ^ (-52)`, and with
more a weight is too small to lift a sum above one.
-/

namespace Clearra.Proof.Supply

open Clearra.Supply Lib Nat List

/-- The weight of a pattern that is not the last. -/
def uniformWeight (total : Nat) : ℚ := binary64 (1 / binary64 total)

/-- What the last pattern of a complete list gets. -/
def terminalWeight (total : Nat) : ℚ :=
  binary64 (1 - binary64 (uniformWeight total * binary64 (total - 1 : Nat)))

section

variable {total : Nat}

theorem one_le_binary64_natCast (h : 0 < total) : 1 ≤ binary64 (total : ℚ) := by
  have hone : (1 : ℚ) ≤ total := by exact_mod_cast h
  exact binary64_one.symm.trans_le (binary64_mono zero_le_one hone)

theorem uniformWeight_nonneg (h : 0 < total) : 0 ≤ uniformWeight total :=
  binary64_nonneg (one_div_nonneg.mpr (zero_le_one.trans (one_le_binary64_natCast h)))

theorem uniformWeight_le_one (h : 0 < total) : uniformWeight total ≤ 1 := by
  have hone := one_le_binary64_natCast h
  have hle : 1 / binary64 (total : ℚ) ≤ 1 := (div_le_one (zero_lt_one.trans_le hone)).mpr hone
  exact (binary64_mono (one_div_nonneg.mpr (zero_le_one.trans hone)) hle).trans_eq binary64_one

/-- Rounding adds at most half a unit. -/
theorem mul_uniformWeight_le (h : 0 < total) {x : ℚ} (hx : 0 ≤ x) (hle : x ≤ binary64 (total : ℚ)) :
    uniformWeight total * x ≤ 1 + 2 ^ (-53 : ℤ) := by
  have hpos : 0 < binary64 (total : ℚ) := zero_lt_one.trans_le (one_le_binary64_natCast h)
  have herror := binary64_error_mul (one_div_pos.mpr hpos)
  rw [abs_le] at herror
  have hweight : uniformWeight total ≤ 1 / binary64 (total : ℚ) * (1 + 2 ^ (-53 : ℤ)) := by
    rw [uniformWeight]
    linarith [herror.2]
  have hfactor : (0 : ℚ) ≤ 1 + 2 ^ (-53 : ℤ) := by positivity
  calc uniformWeight total * x
      ≤ 1 / binary64 (total : ℚ) * (1 + 2 ^ (-53 : ℤ)) * binary64 (total : ℚ) :=
        mul_le_mul hweight hle hx (mul_nonneg (one_div_pos.mpr hpos).le hfactor)
    _ = 1 + 2 ^ (-53 : ℤ) := by rw [mul_right_comm, one_div_mul_cancel hpos.ne', one_mul]

theorem uniform_mul_pred_mem (h : 0 < total) :
    0 ≤ uniformWeight total * binary64 (total - 1 : Nat) ∧
      uniformWeight total * binary64 (total - 1 : Nat) ≤ 1 + 2 ^ (-53 : ℤ) := by
  have hpred : 0 ≤ binary64 ((total - 1 : Nat) : ℚ) := binary64_nonneg (cast_nonneg _)
  refine ⟨mul_nonneg (uniformWeight_nonneg h) hpred, mul_uniformWeight_le h hpred ?_⟩
  exact binary64_mono (cast_nonneg _) (by exact_mod_cast sub_le total 1)

theorem terminalWeight_mem (h : 0 < total) : 0 ≤ terminalWeight total ∧ terminalWeight total ≤ 1 := by
  obtain ⟨hnonneg, hle⟩ := uniform_mul_pred_mem h
  have hone : binary64 (uniformWeight total * binary64 (total - 1 : Nat)) ≤ 1 :=
    (binary64_mono hnonneg hle).trans_eq binary64_one_add_half
  have hzero := binary64_nonneg hnonneg
  exact ⟨binary64_nonneg (by linarith),
    (binary64_mono (by linarith) (by linarith)).trans_eq binary64_one⟩

/-! ## Sums -/

/-- The rounded sum of `k` equal weights. -/
def partialSum (weight : ℚ) : Nat → ℚ
  | 0 => 0
  | k + 1 => binary64 (partialSum weight k + weight)

theorem partialSum_nonneg {weight : ℚ} (h : 0 ≤ weight) (k : Nat) : 0 ≤ partialSum weight k := by
  induction k with
  | zero => exact le_refl 0
  | succ k ih => exact binary64_nonneg (add_nonneg ih h)

/-- Small weights do not lift a sum above one. -/
theorem partialSum_le_one {weight : ℚ} (hnonneg : 0 ≤ weight) (h : weight ≤ 2 ^ (-53 : ℤ)) (k : Nat) :
    partialSum weight k ≤ 1 := by
  induction k with
  | zero => exact zero_le_one
  | succ k ih =>
    have hsum : partialSum weight k + weight ≤ 1 + 2 ^ (-53 : ℤ) := add_le_add ih h
    exact (binary64_mono (add_nonneg (partialSum_nonneg hnonneg k) hnonneg) hsum).trans_eq
      binary64_one_add_half

/-- Every addition errs by at most `2 ^ (-52)`, as long as the sum stays below four. -/
theorem partialSum_le {weight : ℚ} (hnonneg : 0 ≤ weight) {k : Nat}
    (h : k * weight + k * 2 ^ (-52 : ℤ) < 4) :
    partialSum weight k ≤ k * weight + k * 2 ^ (-52 : ℤ) := by
  induction k with
  | zero => simp [partialSum]
  | succ k ih =>
    have hulp : (0 : ℚ) < 2 ^ (-52 : ℤ) := by positivity
    push_cast at h ⊢
    have hprev := ih (by linarith)
    have hpos := add_nonneg (partialSum_nonneg hnonneg k) hnonneg
    have hlt : partialSum weight k + weight < 2 ^ ((1 : ℤ) + 1) := by
      norm_num
      linarith
    have herror := (abs_le.mp (binary64_error_of_lt hpos hlt)).2
    rw [show (1 : ℤ) - 53 = -52 by norm_num] at herror
    rw [partialSum]
    linarith

end

/-! ## The weights of an expansion -/

theorem materializedWeight_eq (count total index : Nat) : materializedWeight count total index =
    if count = total ∧ index + 1 = count then terminalWeight total else uniformWeight total := by
  rw [materializedWeight]
  split
  · rename_i h
    rw [terminalWeight, h.1]
    rfl
  · rfl

variable {count total : Nat}

theorem materializedWeight_mem (h : 0 < total) (index : Nat) :
    0 ≤ materializedWeight count total index ∧ materializedWeight count total index ≤ 1 := by
  rw [materializedWeight_eq]
  split
  · exact terminalWeight_mem h
  · exact ⟨uniformWeight_nonneg h, uniformWeight_le_one h⟩

theorem foldl_materializedWeight (count total : Nat) :
    ((List.range (count + 1)).map (materializedWeight (count + 1) total)).foldl
        (fun sum weight => binary64 (sum + weight)) 0 =
      binary64 (partialSum (uniformWeight total) count + materializedWeight (count + 1) total count) := by
  have hpartial : ∀ k ≤ count, ((List.range k).map (materializedWeight (count + 1) total)).foldl
        (fun sum weight => binary64 (sum + weight)) 0 = partialSum (uniformWeight total) k := by
    intro k hk
    induction k with
    | zero => rfl
    | succ k ih =>
      rw [range_succ, map_append, foldl_append, ih (by omega), map_singleton,
        foldl_cons, foldl_nil, materializedWeight_eq, if_neg (by omega), partialSum]
  rw [range_succ, map_append, foldl_append, hpartial count (Nat.le_refl _),
    map_singleton, foldl_cons, foldl_nil]

/-- The tolerance of the check. -/
def summationTolerance (count : Nat) : ℚ :=
  binary64 (binary64 (2 ^ (-52 : ℤ) * binary64 count) * 2)

theorem summationTolerance_nonneg (count : Nat) : 0 ≤ summationTolerance count :=
  binary64_nonneg (mul_nonneg (binary64_nonneg (mul_nonneg (by positivity)
    (binary64_nonneg (cast_nonneg _)))) zero_le_two)

theorem summationTolerance_eq {count : Nat} (h : count < 2 ^ 53) :
    summationTolerance count = count * 2 ^ (-51 : ℤ) := by
  have htwice : (count * 2 ^ (-52 : ℤ) * 2 : ℚ) = count * 2 ^ (-51 : ℤ) := by norm_num; ring
  rw [summationTolerance, binary64_natCast h, mul_comm, mul_comm ((2 : ℚ) ^ (-52 : ℤ)),
    binary64_exact h, mul_comm, htwice, binary64_exact h]

theorem four_le_summationTolerance {count : Nat} (h : 2 ^ 53 ≤ binary64 (count : ℚ)) :
    4 ≤ summationTolerance count := by
  have hinner : (2 : ℚ) ≤ binary64 (2 ^ (-52 : ℤ) * binary64 (count : ℚ)) := by
    refine (binary64_two_zpow 1).symm.trans_le ?_ |>.trans' (by norm_num)
    refine binary64_mono (by positivity) ?_
    calc (2 : ℚ) ^ (1 : ℤ) = 2 ^ (-52 : ℤ) * 2 ^ 53 := by norm_num
      _ ≤ 2 ^ (-52 : ℤ) * binary64 (count : ℚ) := mul_le_mul_of_nonneg_left h (by positivity)
  refine (binary64_two_zpow 2).symm.trans_le ?_ |>.trans' (by norm_num)
  refine binary64_mono (by positivity) ?_
  rw [show (2 : ℚ) ^ (2 : ℤ) = 2 * 2 by norm_num]
  exact mul_le_mul_of_nonneg_right hinner zero_le_two

/-- With many patterns a weight does not count, and the tolerance is more than the last one. -/
theorem sum_le_tolerance_of_many (htotal : 0 < total) (hmany : 2 ^ 53 ≤ binary64 (total : ℚ)) :
    binary64 (partialSum (uniformWeight total) count + materializedWeight (count + 1) total count) ≤
      binary64 (1 + summationTolerance (count + 1)) := by
  have hnonneg := uniformWeight_nonneg htotal
  have hpartial := partialSum_nonneg hnonneg count
  have hsmall : uniformWeight total ≤ 2 ^ (-53 : ℤ) := by
    refine (binary64_mono (one_div_nonneg.mpr (by linarith)) ?_).trans_eq (binary64_two_zpow (-53))
    rw [zpow_neg, one_div]
    exact inv_anti₀ (by positivity) hmany
  have hone := partialSum_le_one hnonneg hsmall count
  rw [materializedWeight_eq]
  split
  · rename_i hcomplete
    rw [← hcomplete.1] at hmany
    have hfour := four_le_summationTolerance hmany
    obtain ⟨hterminal, hterminal'⟩ := terminalWeight_mem htotal
    exact binary64_mono (add_nonneg hpartial hterminal) (by linarith)
  · calc binary64 (partialSum (uniformWeight total) count + uniformWeight total)
        ≤ binary64 (1 + 2 ^ (-53 : ℤ)) :=
          binary64_mono (add_nonneg hpartial hnonneg) (add_le_add hone hsmall)
      _ = binary64 1 := by rw [binary64_one_add_half, binary64_one]
      _ ≤ binary64 (1 + summationTolerance (count + 1)) :=
        binary64_mono zero_le_one (by linarith [summationTolerance_nonneg (count + 1)])

/-- What the last weight of a complete list adds, up to two roundings. -/
theorem terminalWeight_le {count : Nat} (h : count + 1 < 2 ^ 53) :
    terminalWeight (count + 1) ≤ 1 - uniformWeight (count + 1) * count + 2 * 2 ^ (-53 : ℤ) := by
  obtain ⟨hproduct, hproduct'⟩ := uniform_mul_pred_mem (by omega : 0 < count + 1)
  have hpred : binary64 ((count + 1 - 1 : Nat) : ℚ) = count := binary64_natCast (by omega)
  rw [hpred] at hproduct hproduct'
  rw [terminalWeight, hpred]
  have hone : binary64 (uniformWeight (count + 1) * count) ≤ 1 :=
    (binary64_mono hproduct hproduct').trans_eq binary64_one_add_half
  have hzero := binary64_nonneg hproduct
  have hlt : uniformWeight (count + 1) * count < 2 ^ ((0 : ℤ) + 1) :=
    hproduct'.trans_lt (by norm_num)
  have hlt' : 1 - binary64 (uniformWeight (count + 1) * count) < 2 ^ ((0 : ℤ) + 1) := by
    rw [zero_add, zpow_one]
    linarith
  have hinner := (abs_le.mp (binary64_error_of_lt hproduct hlt)).1
  have houter := (abs_le.mp (binary64_error_of_lt (sub_nonneg.mpr hone) hlt')).2
  rw [zero_sub] at hinner houter
  linarith

/-- With fewer patterns the error of every addition is bounded. -/
theorem sum_le_tolerance_of_few (h : count + 1 ≤ total) (hfew : total < 2 ^ 53) :
    binary64 (partialSum (uniformWeight total) count + materializedWeight (count + 1) total count) ≤
      binary64 (1 + summationTolerance (count + 1)) := by
  have htotal : 0 < total := by omega
  have hnonneg := uniformWeight_nonneg htotal
  have hpartial := partialSum_nonneg hnonneg count
  have hmul : ∀ k : Nat, k ≤ total → uniformWeight total * k ≤ 1 + 2 ^ (-53 : ℤ) := by
    intro k hk
    refine mul_uniformWeight_le htotal (cast_nonneg _) ?_
    rw [binary64_natCast hfew]
    exact_mod_cast hk
  have hbefore := hmul count (by omega)
  have hafter := hmul (count + 1) h
  have hcount : (count : ℚ) * 2 ^ (-52 : ℤ) ≤ 2 := by
    have hle : (count : ℚ) ≤ 2 ^ 53 := by exact_mod_cast (by omega : count ≤ 2 ^ 53)
    calc (count : ℚ) * 2 ^ (-52 : ℤ) ≤ 2 ^ 53 * 2 ^ (-52 : ℤ) :=
          mul_le_mul_of_nonneg_right hle (by positivity)
      _ = 2 := by norm_num
  have hunit : (2 : ℚ) ^ (-53 : ℤ) < 1 := by norm_num
  have hulp : (0 : ℚ) < 2 ^ (-53 : ℤ) := by positivity
  have hhalf : (2 : ℚ) ^ (-52 : ℤ) = 2 * 2 ^ (-53 : ℤ) := by norm_num
  have hdouble : (2 : ℚ) ^ (-51 : ℤ) = 4 * 2 ^ (-53 : ℤ) := by norm_num
  have herrors : 0 ≤ (count : ℚ) * 2 ^ (-53 : ℤ) := by positivity
  have hrounded := partialSum_le hnonneg (k := count) (by linarith)
  rw [summationTolerance_eq (h.trans_lt hfew), hdouble, materializedWeight_eq]
  rw [hhalf] at hrounded
  push_cast at hafter ⊢
  split
  · rename_i hcomplete
    obtain ⟨rfl, -⟩ := hcomplete
    have hterminal := terminalWeight_le hfew
    exact binary64_mono (add_nonneg hpartial (terminalWeight_mem htotal).1) (by linarith)
  · exact binary64_mono (add_nonneg hpartial hnonneg) (by linarith)

theorem sum_le_tolerance (h : count + 1 ≤ total) :
    binary64 (partialSum (uniformWeight total) count + materializedWeight (count + 1) total count) ≤
      binary64 (1 + summationTolerance (count + 1)) := by
  by_cases hfew : total < 2 ^ 53
  · exact sum_le_tolerance_of_few h hfew
  · refine sum_le_tolerance_of_many (by omega) ((binary64_two_zpow 53).symm.trans_le ?_ |>.trans' ?_)
    · exact binary64_mono (by positivity) (by exact_mod_cast Nat.le_of_not_lt hfew)
    · norm_num

theorem materializedProbabilities_ok (hpos : 0 < count) (h : count ≤ total) :
    ∃ probabilities, materializedProbabilities count total = .ok probabilities ∧
      probabilities.length = count ∧ weightedPatternSet probabilities = .ok probabilities := by
  obtain ⟨count, rfl⟩ := exists_eq_succ_of_ne_zero hpos.ne'
  have hmem : ∀ index, 0 ≤ materializedWeight (count + 1) total index ∧
      materializedWeight (count + 1) total index ≤ 1 :=
    fun index => materializedWeight_mem (by omega) index
  let probability := fun index : Nat =>
    (⟨materializedWeight (count + 1) total index, (hmem index).1, (hmem index).2⟩ : ProbabilityValue)
  refine ⟨(List.range (count + 1)).map probability, ?_, by rw [length_map, length_range], ?_⟩
  · refine Lib.mapM_eq_ok_map fun index _ => ?_
    rw [ProbabilityValue.new, dif_pos (hmem index)]
  · rw [weightedPatternSet]
    refine if_neg (not_lt.mpr ?_)
    rw [length_map, length_range, Nat.max_eq_left (by omega), foldl_map]
    have hsum := sum_le_tolerance h
    rw [← foldl_materializedWeight, foldl_map] at hsum
    exact hsum

end Clearra.Proof.Supply
