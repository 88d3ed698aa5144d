import Mathlib

/-!
# The combinatorial number system

A set of `k` positions below `n`, listed in increasing order `p₁ < … < pₖ`, is numbered by
`∑ C(pᵢ, i)`. The numbers run from `0` below `C(n, k)`, and the largest position can be read off the
number: it is the largest `p` with `C(p, k)` not above it. So the positions come back one by one
from the largest down.
-/

namespace Clearra.Lib

open List Nat

/-- The number of a list of positions. -/
def combinadic (positions : List Nat) : Nat :=
  (positions.mapIdx fun i p => p.choose (i + 1)).sum

theorem combinadic_append_singleton (positions : List Nat) (last : Nat) :
    combinadic (positions ++ [last]) = combinadic positions + last.choose (positions.length + 1) := by
  rw [combinadic, mapIdx_concat, List.sum_append, sum_singleton, combinadic]

variable {positions : List Nat} {last : Nat}

theorem sortedLT_append_singleton : (positions ++ [last]).Pairwise (· < ·) ↔
      positions.Pairwise (· < ·) ∧ ∀ p ∈ positions, p < last := by
  rw [pairwise_append]
  constructor
  · rintro ⟨h, -, hlt⟩
    exact ⟨h, fun p hp => hlt p hp last (mem_singleton.mpr rfl)⟩
  · rintro ⟨h, hlt⟩
    refine ⟨h, pairwise_singleton _ _, fun p hp q hq => ?_⟩
    rw [mem_singleton.mp hq]
    exact hlt p hp

/-- Positions below `n` are numbered below `C(n, k)`. -/
theorem combinadic_lt (hsorted : positions.Pairwise (· < ·)) {n : Nat}
    (hlt : ∀ p ∈ positions, p < n) : combinadic positions < n.choose positions.length := by
  induction positions using List.reverseRecOn generalizing n with
  | nil => simp [combinadic]
  | append_singleton positions last ih =>
    obtain ⟨hsorted', hbelow⟩ := sortedLT_append_singleton.mp hsorted
    have hlast : last < n := hlt last (by simp)
    rw [combinadic_append_singleton, length_append, length_singleton]
    calc combinadic positions + last.choose (positions.length + 1)
        < last.choose positions.length + last.choose (positions.length + 1) :=
          Nat.add_lt_add_right (ih hsorted' hbelow) _
      _ = (last + 1).choose (positions.length + 1) := (choose_succ_succ' _ _).symm
      _ ≤ n.choose (positions.length + 1) := choose_le_choose _ hlast

/-- The largest position is the largest whose count does not exceed the number. -/
theorem choose_le_combinadic_iff (hsorted : (positions ++ [last]).Pairwise (· < ·)) {c : Nat} :
    c.choose (positions.length + 1) ≤ combinadic (positions ++ [last]) ↔ c ≤ last := by
  obtain ⟨hsorted', hbelow⟩ := sortedLT_append_singleton.mp hsorted
  rw [combinadic_append_singleton]
  constructor
  · intro h
    by_contra hgt
    have hnext : (last + 1).choose (positions.length + 1) ≤ c.choose (positions.length + 1) :=
      choose_le_choose _ (Nat.lt_of_not_le hgt)
    rw [choose_succ_succ'] at hnext
    have := combinadic_lt hsorted' hbelow
    omega
  · intro h
    exact (choose_le_choose _ h).trans (Nat.le_add_left _ _)

theorem length_le_of_pairwise_lt
    (hsorted : (positions ++ [last]).Pairwise (· < ·)) : positions.length ≤ last := by
  induction positions using List.reverseRecOn generalizing last with
  | nil => exact Nat.zero_le _
  | append_singleton positions last' ih =>
    obtain ⟨hsorted', hbelow⟩ := sortedLT_append_singleton.mp hsorted
    have := ih hsorted'
    have hlt : last' < last := hbelow last' (by simp)
    rw [length_append, length_singleton]
    omega

/-- Every number below `C(n, k)` is the number of `k` positions below `n`. -/
theorem exists_combinadic {n k r : Nat} (h : r < n.choose k) : ∃ positions : List Nat,
    positions.Pairwise (· < ·) ∧ positions.length = k ∧ (∀ p ∈ positions, p < n) ∧
      combinadic positions = r := by
  induction n generalizing k r with
  | zero =>
    cases k with
    | zero => exact ⟨[], by simp, rfl, by simp, by simp [combinadic] at h ⊢; omega⟩
    | succ k => simp at h
  | succ n ih =>
    cases k with
    | zero => exact ⟨[], by simp, rfl, by simp, by simp [combinadic] at h ⊢; omega⟩
    | succ k =>
      rw [choose_succ_succ'] at h
      by_cases hlast : r < n.choose (k + 1)
      · obtain ⟨positions, hsorted, hlen, hlt, hrank⟩ := ih hlast
        exact ⟨positions, hsorted, hlen, fun p hp => (hlt p hp).trans (lt_succ_self n), hrank⟩
      · -- the largest position is `n`
        obtain ⟨positions, hsorted, hlen, hlt, hrank⟩ := ih (k := k) (r := r - n.choose (k + 1))
          (by omega)
        refine ⟨positions ++ [n], sortedLT_append_singleton.mpr ⟨hsorted, hlt⟩, by simp [hlen],
          fun p hp => ?_, ?_⟩
        · rcases mem_append.mp hp with hp | hp
          · exact (hlt p hp).trans (lt_succ_self n)
          · rw [mem_singleton.mp hp]
            exact lt_succ_self n
        · rw [combinadic_append_singleton, hrank, hlen]
          omega

end Clearra.Lib
