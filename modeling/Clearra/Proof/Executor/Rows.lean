import Clearra.Executor.Rows
import Clearra.Lib.Bits

/-!
# Target rows and current rows

The visible rows below a target row are counted by `Nat.count`, and the loop of
`target_row_for_current_row` inverts that count: `targetRow_eq_some` is the one fact
about it, and order, injectivity and "only deleted rows in between" follow from what Mathlib knows
about counting.
-/

namespace Clearra.Proof.Executor

open Clearra.Executor Lib BitVec List

/-! ## Row sets -/

@[simp] theorem hasRow_eq (rows : Rows) (r : Nat) : hasRow rows r = rows.getLsbD r := by
  rw [Bool.eq_iff_iff, hasRow, decide_eq_true_eq]
  exact and_one_shiftLeft_ne_zero_iff

theorem getLsbD_rowBit (r k : Nat) : (rowBit r).getLsbD k = decide (k = r ∧ k < 16) :=
  getLsbD_one_shiftLeft 16 r k

theorem getLsbD_bit (i k : Nat) : (bit i).getLsbD k = decide (k = i ∧ k < 64) :=
  getLsbD_one_shiftLeft 64 i k

theorem getLsbD_lowerRowMask {row : Nat} (h : row < 16) (k : Nat) :
    (lowerRowMask row).getLsbD k = decide (k < row) := by
  unfold lowerRowMask
  split
  · rename_i h0
    subst h0
    simp
  · exact getLsbD_one_shiftLeft_sub_one h k

theorem getLsbD_fullRowMask {width : Nat} (h : width ≤ 64) (k : Nat) :
    (fullRowMask width).getLsbD k = decide (k < width) := by
  unfold fullRowMask
  split
  · rename_i h64
    rw [getLsbD_allOnes, h64]
  · exact getLsbD_one_shiftLeft_sub_one (show width < 64 by omega) k

theorem getLsbD_boardRow {width : Nat} (h : width ≤ 64) (board : Board) (row k : Nat) :
    (boardRow width board row).getLsbD k =
      (decide (k < width) && board.getLsbD (row * width + k)) := by
  rw [boardRow, getLsbD_and, getLsbD_ushiftRight, getLsbD_fullRowMask h, Bool.and_comm]

theorem getLsbD_occupiedRows (width : Nat) (cells : Board) (r : Nat) :
    (occupiedRows width cells).getLsbD r = true ↔
      r < 16 ∧ ∃ cell, cells.getLsbD cell = true ∧ cell / width = r := by
  rw [occupiedRows, getLsbD_foldl_or (fun cell => rowBit (cell / width))
    (fun cell => cells.getLsbD cell)]
  simp only [mem_range, getLsbD_rowBit, decide_eq_true_eq]
  constructor
  · rintro (h | ⟨cell, -, hset, hrow, hr⟩)
    · simp at h
    · exact ⟨hr, cell, hset, hrow.symm⟩
  · rintro ⟨hr, cell, hset, hrow⟩
    exact Or.inr ⟨cell, lt_of_getLsbD hset, hset, hrow.symm, hr⟩

/-! ## Visible rows -/

/-- How many rows below `t` are still there. -/
def visibleBelow (deleted : Rows) (t : Nat) : Nat :=
  Nat.count (fun r => deleted.getLsbD r = false) t

theorem visibleBelow_succ (deleted : Rows) (t : Nat) : visibleBelow deleted (t + 1) =
    visibleBelow deleted t + if deleted.getLsbD t = false then 1 else 0 :=
  Nat.count_succ _ t

theorem targetRowLoop_eq_some (deleted : Rows) (current t : Nat) : ∀ (n k : Nat),
    targetRowLoop deleted current (List.range' k n) (visibleBelow deleted k) = some t ↔
      (k ≤ t ∧ t < k + n) ∧ deleted.getLsbD t = false ∧ visibleBelow deleted t = current ∧
        visibleBelow deleted k ≤ current := by
  intro n
  induction n with
  | zero =>
    intro k
    simp only [range'_zero, targetRowLoop]
    exact ⟨by simp, fun h => by omega⟩
  | succ n ih =>
    intro k
    have hsucc := visibleBelow_succ deleted k
    rw [range'_succ, targetRowLoop, hasRow_eq]
    cases hdel : deleted.getLsbD k with
    | true =>
      -- a deleted row is skipped and does not count
      have hcount : visibleBelow deleted k = visibleBelow deleted (k + 1) := by
        rw [hsucc, hdel]; simp
      rw [if_pos rfl, hcount, ih]
      constructor
      · rintro ⟨⟨h1, h2⟩, h3⟩
        exact ⟨⟨by omega, by omega⟩, h3⟩
      · rintro ⟨⟨h1, h2⟩, h3, h4⟩
        have hne : t ≠ k := by
          rintro rfl
          rw [hdel] at h3
          simp at h3
        exact ⟨⟨by omega, by omega⟩, h3, h4⟩
    | false =>
      have hcount : visibleBelow deleted k + 1 = visibleBelow deleted (k + 1) := by
        rw [hsucc, hdel]; simp
      rw [if_neg (by simp)]
      by_cases hcur : visibleBelow deleted k = current
      · rw [if_pos hcur, Option.some.injEq]
        constructor
        · rintro rfl
          exact ⟨⟨by omega, by omega⟩, hdel, hcur, by omega⟩
        · rintro ⟨-, h3, h4, -⟩
          exact Nat.count_injective hdel h3 (hcur.trans h4.symm)
      · rw [if_neg hcur, hcount, ih]
        constructor
        · rintro ⟨⟨h1, h2⟩, h3, h4, h5⟩
          exact ⟨⟨by omega, by omega⟩, h3, h4, by omega⟩
        · rintro ⟨⟨h1, h2⟩, h3, h4, h5⟩
          have hne : t ≠ k := by
            rintro rfl
            exact hcur h4
          exact ⟨⟨by omega, by omega⟩, h3, h4, by omega⟩

variable {deleted : Rows}

/-- **What the loop finds**: the visible target row with exactly `current` visible rows below. -/
theorem targetRow_eq_some {height : Nat} {current t : Nat} :
    targetRowForCurrentRow height deleted current = some t ↔
      t < height ∧ deleted.getLsbD t = false ∧ visibleBelow deleted t = current := by
  have h := targetRowLoop_eq_some deleted current t height 0
  rw [show visibleBelow deleted 0 = 0 from Nat.count_zero _, ← range_eq_range'] at h
  rw [targetRowForCurrentRow, h]
  constructor
  · rintro ⟨⟨-, h1⟩, h2, h3, -⟩
    exact ⟨by omega, h2, h3⟩
  · rintro ⟨h1, h2, h3⟩
    exact ⟨⟨by omega, by omega⟩, h2, h3, by omega⟩

theorem visibleBelow_mono (deleted : Rows) {s t : Nat} (h : s ≤ t) :
    visibleBelow deleted s ≤ visibleBelow deleted t := Nat.count_monotone _ h

theorem visibleBelow_lt {s t : Nat} (hs : deleted.getLsbD s = false)
    (h : s < t) : visibleBelow deleted s < visibleBelow deleted t :=
  Nat.count_strict_mono hs h

theorem targetRow_lt_iff {height : Nat} {a b s t : Nat}
    (hs : targetRowForCurrentRow height deleted a = some s)
    (ht : targetRowForCurrentRow height deleted b = some t) : s < t ↔ a < b := by
  obtain ⟨-, hs1, hs2⟩ := targetRow_eq_some.mp hs
  obtain ⟨-, ht1, ht2⟩ := targetRow_eq_some.mp ht
  constructor
  · intro h
    have := visibleBelow_lt hs1 h
    omega
  · intro h
    by_contra hle
    have := visibleBelow_mono deleted (show t ≤ s by omega)
    omega

/-- Between the target rows of two neighbouring current rows everything is deleted. -/
theorem deleted_between {s t r : Nat} (hs : deleted.getLsbD s = false)
    (hst : visibleBelow deleted t = visibleBelow deleted s + 1) (h1 : s < r) (h2 : r < t) :
    deleted.getLsbD r = true := by
  by_contra hr
  rw [Bool.not_eq_true] at hr
  have h3 := visibleBelow_lt hs h1
  have h4 := visibleBelow_lt hr h2
  omega

theorem count_add_visibleBelow (deleted : Rows) (n : Nat) :
    Nat.count (fun row => deleted.getLsbD row = true) n + visibleBelow deleted n = n := by
  induction n with
  | zero => rfl
  | succ n ih =>
    rw [Nat.count_succ, visibleBelow_succ]
    cases deleted.getLsbD n <;> simp <;> omega

/-- `count_ones(deleted & lower_row_mask(t))` counts the other rows. -/
theorem countOnes_lower (deleted : Rows) {t : Nat} (ht : t < 16) :
    countOnes (deleted &&& lowerRowMask t) + visibleBelow deleted t = t := by
  rw [countOnes, countP_range_eq_count]
  -- past row `t` the mask is empty, below it it is transparent
  have hcount : ∀ n, Nat.count (fun k => (deleted &&& lowerRowMask t).getLsbD k = true) n =
      Nat.count (fun k => deleted.getLsbD k = true) (min n t) := by
    intro n
    induction n with
    | zero => simp
    | succ n ih =>
      rw [Nat.count_succ, ih, getLsbD_and, getLsbD_lowerRowMask ht]
      by_cases hn : n < t
      · rw [Nat.min_eq_left hn.le, Nat.min_eq_left (show n + 1 ≤ t from hn), Nat.count_succ]
        simp [hn]
      · rw [Nat.min_eq_right (by omega), Nat.min_eq_right (by omega)]
        simp [hn]
  rw [hcount, Nat.min_eq_right ht.le]
  exact count_add_visibleBelow deleted t

end Clearra.Proof.Executor
