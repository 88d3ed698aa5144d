import Clearra.Executor.BuildOrder
import Clearra.Proof.Executor.Locks

/-!
# Clearing rows twice

The physical board is the target board with rows taken out, and locking a piece takes out more. The
source has three functions for this — `compact_target_board` removes named rows, `place_and_clear`
the full ones, `merge_deleted_rows` renames rows of the board as it stands to rows of the target —
and they fit together: clearing the compacted board is compacting by the merged rows
(`compact_compact`). Everything is stated cell by cell, the only level at which the three say
comparable things. In the target's frame a lock is then a union (`clearLock_target_frame`), and
unions commute.
-/

namespace Clearra.Proof.Executor

open Clearra.Executor CandidateProjection List Nat

/-! ## Boards by their cells -/

variable {width : Nat}

theorem board_ext (hw : 0 < width) {a b : Board} (h : ∀ y col, col < width →
      (a.getLsbD (y * width + col) = true ↔ b.getLsbD (y * width + col) = true)) : a = b := by
  refine BitVec.eq_of_getLsbD_eq fun k _ => ?_
  have hk := h (k / width) (k % width) (mod_lt k hw)
  rw [div_add_mod' k width] at hk
  rw [Bool.eq_iff_iff]
  exact hk

theorem boardRow_eq_full_iff (hw : width ≤ 64) {board : Board} {row : Nat} :
    boardRow width board row = fullRowMask width ↔
      ∀ col, col < width → board.getLsbD (row * width + col) = true := by
  constructor
  · intro h col hcol
    have hbit := congrArg (·.getLsbD col) h
    simp only [getLsbD_boardRow hw, getLsbD_fullRowMask hw, hcol, decide_true, Bool.true_and]
      at hbit
    exact hbit
  · intro h
    refine BitVec.eq_of_getLsbD_eq fun k _ => ?_
    rw [getLsbD_boardRow hw, getLsbD_fullRowMask hw]
    by_cases hk : k < width
    · rw [h k hk, Bool.and_true]
    · simp [hk]

theorem getLsbD_boardRow_shiftLeft (hw : width ≤ 64) (board : Board) (row out y col : Nat)
    (hcol : col < width) :
    (boardRow width board row <<< (out * width)).getLsbD (y * width + col) = true ↔
      y = out ∧ y * width + col < 64 ∧ board.getLsbD (row * width + col) = true := by
  rw [BitVec.getLsbD_shiftLeft, getLsbD_boardRow hw]
  simp only [Bool.and_eq_true, decide_eq_true_eq, Bool.not_eq_true', decide_eq_false_iff_not]
  constructor
  · rintro ⟨⟨h64, hle⟩, hlt, hbit⟩
    have hy : y = out := by
      rcases Nat.lt_trichotomy y out with hlow | heq | hhigh
      · have := Nat.mul_le_mul_right width (show y + 1 ≤ out from hlow)
        rw [succ_mul] at this
        omega
      · exact heq
      · have := Nat.mul_le_mul_right width (show out + 1 ≤ y from hhigh)
        rw [succ_mul] at this
        omega
    subst hy
    rw [Nat.add_sub_cancel_left] at hbit
    exact ⟨rfl, h64, hbit⟩
  · rintro ⟨rfl, h64, hbit⟩
    rw [Nat.add_sub_cancel_left]
    exact ⟨⟨h64, by omega⟩, hcol, hbit⟩

/-! ## Compaction -/

/-- One turn of the compaction loop. -/
def compactStep (width : Nat) (board : Board) (deletedRows : Rows) (st : Board × Nat)
    (targetRow : Nat) : Board × Nat :=
  if hasRow deletedRows targetRow then st
  else (st.1 ||| (boardRow width board targetRow <<< (st.2 * width)), st.2 + 1)

theorem compactTargetBoard_eq (width height : Nat) (board : Board) (deletedRows : Rows) :
    compactTargetBoard width height board deletedRows =
      ((List.range height).foldl (compactStep width board deletedRows) (0, 0)).1 := rfl

/-- After `n` rows: the visible ones among them, packed. -/
theorem foldl_compactStep (hw : width ≤ 64) (board : Board) (deleted : Rows) :
    ∀ n, ((List.range n).foldl (compactStep width board deleted) (0, 0)).2 =
        visibleBelow deleted n ∧
      ∀ y col, col < width →
        (((List.range n).foldl (compactStep width board deleted) (0, 0)).1.getLsbD
            (y * width + col) = true ↔
          y * width + col < 64 ∧ ∃ t, targetRowForCurrentRow n deleted y = some t ∧
            board.getLsbD (t * width + col) = true) := by
  intro n
  induction n with
  | zero =>
    refine ⟨rfl, fun y col _ => ⟨by simp, ?_⟩⟩
    rintro ⟨-, t, ht, -⟩
    exact absurd (targetRow_eq_some.mp ht).1 (by omega)
  | succ n ih =>
    obtain ⟨hout, hcells⟩ := ih
    rw [range_succ, foldl_append, foldl_cons, foldl_nil]
    generalize hst : (List.range n).foldl (compactStep width board deleted) (0, 0) = st at *
    rw [compactStep, hasRow_eq]
    cases hdel : deleted.getLsbD n with
    | true =>
      rw [if_pos rfl]
      refine ⟨by rw [visibleBelow_succ, hdel]; simpa using hout, fun y col hcol => ?_⟩
      rw [hcells y col hcol]
      refine and_congr_right fun _ => exists_congr fun t => and_congr_left fun _ => ?_
      rw [targetRow_eq_some, targetRow_eq_some]
      constructor
      · rintro ⟨hlt, hvis, hy⟩
        exact ⟨by omega, hvis, hy⟩
      · rintro ⟨hlt, hvis, hy⟩
        have hne : t ≠ n := by
          rintro rfl
          rw [hdel] at hvis
          simp at hvis
        exact ⟨by omega, hvis, hy⟩
    | false =>
      rw [if_neg (by simp)]
      refine ⟨by rw [visibleBelow_succ, hdel, ← hout]; rfl, fun y col hcol => ?_⟩
      dsimp only
      rw [BitVec.getLsbD_or, Bool.or_eq_true, hcells y col hcol,
        getLsbD_boardRow_shiftLeft hw board n st.2 y col hcol]
      constructor
      · rintro (⟨h64, t, ht, hbit⟩ | ⟨hy, h64, hbit⟩)
        · obtain ⟨hlt, hvis, hy⟩ := targetRow_eq_some.mp ht
          exact ⟨h64, t, targetRow_eq_some.mpr ⟨by omega, hvis, hy⟩, hbit⟩
        · exact ⟨h64, n, targetRow_eq_some.mpr ⟨by omega, hdel, by omega⟩, hbit⟩
      · rintro ⟨h64, t, ht, hbit⟩
        obtain ⟨hlt, hvis, hy⟩ := targetRow_eq_some.mp ht
        rcases Nat.lt_succ_iff_lt_or_eq.mp hlt with hlt | rfl
        · exact Or.inl ⟨h64, t, targetRow_eq_some.mpr ⟨hlt, hvis, hy⟩, hbit⟩
        · exact Or.inr ⟨by omega, h64, hbit⟩

theorem visibleBelow_le (deleted : Rows) (t : Nat) : visibleBelow deleted t ≤ t :=
  count_le _

variable {height : Nat}

theorem targetRow_le {deleted : Rows} {y t : Nat}
    (h : targetRowForCurrentRow height deleted y = some t) : y ≤ t := by
  obtain ⟨-, -, rfl⟩ := targetRow_eq_some.mp h
  exact visibleBelow_le deleted t

theorem cell_lt_cells {width height row col : Nat} (hrow : row < height) (hcol : col < width) :
    row * width + col < width * height := by
  have := Nat.mul_le_mul_right width (show row + 1 ≤ height from hrow)
  rw [succ_mul, Nat.mul_comm height] at this
  omega

theorem cell_lt {width height row col : Nat} (hcells : width * height ≤ 64) (hrow : row < height)
    (hcol : col < width) : row * width + col < 64 := (cell_lt_cells hrow hcol).trans_le hcells

variable {width height : Nat}

theorem compact_cell (hw : width ≤ 64) (hcells : width * height ≤ 64) (board : Board)
    (deleted : Rows) {y col : Nat} (hcol : col < width) :
    (compactTargetBoard width height board deleted).getLsbD (y * width + col) = true ↔
      ∃ t, targetRowForCurrentRow height deleted y = some t ∧
        board.getLsbD (t * width + col) = true := by
  rw [compactTargetBoard_eq, (foldl_compactStep hw board deleted height).2 y col hcol]
  refine and_iff_right_of_imp ?_
  rintro ⟨t, ht, -⟩
  have hlt := (targetRow_eq_some.mp ht).1
  exact cell_lt hcells (lt_of_le_of_lt (targetRow_le ht) hlt) hcol

/-! ## The rows a board fills -/

theorem getLsbD_fullRows (hh : height ≤ 16) (board : Board) (r : Nat) :
    (fullRows width height board).getLsbD r = true ↔
      r < height ∧ boardRow width board r = fullRowMask width := by
  have hbits := Lib.getLsbD_foldl_or (fun row : Nat => rowBit row)
    (fun row => decide (boardRow width board row = fullRowMask width)) r (List.range height) 0
  simp only [decide_eq_true_eq] at hbits
  rw [fullRows, hbits]
  simp only [getLsbD_rowBit, decide_eq_true_eq, mem_range]
  constructor
  · rintro (h | ⟨row, hrow, hfull, rfl, -⟩)
    · simp at h
    · exact ⟨hrow, hfull⟩
  · rintro ⟨hr, hfull⟩
    exact Or.inr ⟨r, hr, hfull, rfl, by omega⟩

theorem fullRows_succ (width n : Nat) (board : Board) :
    fullRows width (n + 1) board =
      if boardRow width board n = fullRowMask width then
        fullRows width n board ||| rowBit n
      else fullRows width n board := by
  simp only [fullRows, range_succ, foldl_append, foldl_cons, foldl_nil]

/-- `place_and_clear` compacts by the rows that are full. -/
theorem foldl_clearStep (hh : height ≤ 16) (board : Board) :
    ∀ n, n ≤ height → (List.range n).foldl (clearStep width board) ⟨0, 0, 0⟩ =
      ⟨((List.range n).foldl (compactStep width board (fullRows width height board)) (0, 0)).1,
        fullRows width n board, ((List.range n).foldl (compactStep width board
          (fullRows width height board)) (0, 0)).2⟩ := by
  intro n
  induction n with
  | zero => intro _; rfl
  | succ n ih =>
    intro hn
    have hfull : (fullRows width height board).getLsbD n = true ↔
        boardRow width board n = fullRowMask width := by
      rw [getLsbD_fullRows hh]
      exact and_iff_right (by omega)
    rw [fullRows_succ, range_succ, foldl_append, foldl_append, ih (by omega)]
    simp only [foldl_cons, foldl_nil]
    rw [clearStep, compactStep, hasRow_eq]
    by_cases hrow : boardRow width board n = fullRowMask width
    · rw [if_pos hrow, if_pos (hfull.mpr hrow), if_pos hrow]
    · rw [if_neg hrow, if_neg fun h => hrow (hfull.mp h), if_neg hrow]

theorem placeAndClear_eq (hh : height ≤ 16) (board : Board) :
    placeAndClear width height board =
      (compactTargetBoard width height board (fullRows width height board),
        fullRows width height board,
        countOnes (fullRows width height board)) := by
  rw [placeAndClear, foldl_clearStep hh board height (Nat.le_refl _)]
  rfl

/-! ## Merging -/

/-- The rows of the target that are gone once `current` is cleared from a board without
    `previous`. -/
def IsMerged (height : Nat) (previous current merged : Rows) : Prop :=
  ∀ t, merged.getLsbD t = true ↔ previous.getLsbD t = true ∨
    ∃ r, r < height ∧ current.getLsbD r = true ∧
      targetRowForCurrentRow height previous r = some t

theorem foldlM_merge {previous current : Rows} (hh : height ≤ 16) :
    ∀ (l : List Nat) (original : Rows), (∀ r ∈ l, current.getLsbD r = true →
        ∃ t, targetRowForCurrentRow height previous r = some t) →
      ∃ merged, l.foldlM (fun original currentRow =>
          if hasRow current currentRow then
            (targetRowForCurrentRow height previous currentRow).map (original ||| rowBit ·)
          else some original) original = some merged ∧
        ∀ t, merged.getLsbD t = true ↔ original.getLsbD t = true ∨
          ∃ r ∈ l, current.getLsbD r = true ∧
            targetRowForCurrentRow height previous r = some t := by
  intro l
  induction l with
  | nil =>
    intro original _
    exact ⟨original, rfl, fun t => by simp⟩
  | cons r rest ih =>
    intro original h
    rw [foldlM_cons, hasRow_eq]
    have hrest := fun s hs => h s (mem_cons_of_mem r hs)
    cases hcur : current.getLsbD r with
    | false =>
      obtain ⟨merged, hrun, hmerged⟩ := ih original hrest
      refine ⟨merged, by rw [if_neg (by simp)]; exact hrun, fun t => ?_⟩
      rw [hmerged, exists_mem_cons_iff]
      simp [hcur]
    | true =>
      obtain ⟨s, hs⟩ := h r mem_cons_self hcur
      obtain ⟨merged, hrun, hmerged⟩ := ih (original ||| rowBit s) hrest
      refine ⟨merged, by rw [if_pos rfl, hs]; exact hrun, fun t => ?_⟩
      have hs16 := (targetRow_eq_some.mp hs).1
      rw [hmerged, exists_mem_cons_iff, BitVec.getLsbD_or, Bool.or_eq_true, getLsbD_rowBit,
        decide_eq_true_eq, hcur, hs, Option.some.injEq, or_assoc]
      refine or_congr_right (or_congr_left ?_)
      constructor
      · rintro ⟨rfl, -⟩
        exact ⟨rfl, rfl⟩
      · rintro ⟨-, rfl⟩
        exact ⟨rfl, by omega⟩

/-- Merging succeeds when every cleared row is a row of the board as it stands. -/
theorem mergeDeletedRows_spec (previous current : Rows) (hh : height ≤ 16)
    (h : ∀ r, r < height → current.getLsbD r = true →
      ∃ t, targetRowForCurrentRow height previous r = some t) :
    ∃ merged, mergeDeletedRows height previous current = some merged ∧
      IsMerged height previous current merged := by
  obtain ⟨original, hrun, horiginal⟩ := foldlM_merge hh (List.range height) 0
    fun r hr => h r (mem_range.mp hr)
  refine ⟨previous ||| original, by rw [mergeDeletedRows, hrun]; rfl, fun t => ?_⟩
  rw [BitVec.getLsbD_or, Bool.or_eq_true, horiginal]
  simp [mem_range]

/-! ## Composition -/

variable {previous current merged : Rows}

/-- Counting the rows that survive both clears, through the board in between. -/
theorem visibleBelow_merged (hm : IsMerged height previous current merged) :
    ∀ t, t ≤ height →
      visibleBelow merged t = visibleBelow current (visibleBelow previous t) := by
  intro t
  induction t with
  | zero => intro _; rfl
  | succ t ih =>
    intro ht
    rw [visibleBelow_succ, visibleBelow_succ, ih (by omega)]
    cases hprev : previous.getLsbD t with
    | true =>
      have hgone : merged.getLsbD t = true := (hm t).mpr (Or.inl hprev)
      simp [hgone]
    | false =>
      -- row `t` stands at height `visibleBelow previous t`, so it goes exactly if that row does
      have hat : targetRowForCurrentRow height previous (visibleBelow previous t) = some t :=
        targetRow_eq_some.mpr ⟨by omega, hprev, rfl⟩
      have hiff : merged.getLsbD t = true ↔ current.getLsbD (visibleBelow previous t) = true := by
        rw [hm t, hprev]
        constructor
        · rintro (h | ⟨r, -, hcur, hr⟩)
          · simp at h
          · rwa [(targetRow_eq_some.mp hr).2.2]
        · intro hcur
          exact Or.inr ⟨_, lt_of_le_of_lt (visibleBelow_le previous t) (by omega), hcur, hat⟩
      have hsame : merged.getLsbD t = current.getLsbD (visibleBelow previous t) := by
        rw [Bool.eq_iff_iff]
        exact hiff
      rw [if_pos rfl, visibleBelow_succ, hsame]

/-- Rows through both clears are rows through one. -/
theorem targetRow_merged (hm : IsMerged height previous current merged) {y t : Nat} :
    targetRowForCurrentRow height merged y = some t ↔
      ∃ s, targetRowForCurrentRow height current y = some s ∧
        targetRowForCurrentRow height previous s = some t := by
  constructor
  · intro h
    obtain ⟨hlt, hvis, hy⟩ := targetRow_eq_some.mp h
    have hprev : previous.getLsbD t = false := by
      cases hp : previous.getLsbD t with
      | false => rfl
      | true =>
        rw [(hm t).mpr (Or.inl hp)] at hvis
        simp at hvis
    have hat : targetRowForCurrentRow height previous (visibleBelow previous t) = some t :=
      targetRow_eq_some.mpr ⟨hlt, hprev, rfl⟩
    have hslt := lt_of_le_of_lt (visibleBelow_le previous t) hlt
    refine ⟨visibleBelow previous t, targetRow_eq_some.mpr ⟨hslt, ?_, ?_⟩, hat⟩
    · cases hc : current.getLsbD (visibleBelow previous t) with
      | false => rfl
      | true =>
        rw [(hm t).mpr (Or.inr ⟨_, hslt, hc, hat⟩)] at hvis
        simp at hvis
    · rw [← visibleBelow_merged hm t (by omega), hy]
  · rintro ⟨s, hs, ht⟩
    obtain ⟨hslt, hsvis, rfl⟩ := targetRow_eq_some.mp hs
    obtain ⟨htlt, htvis, rfl⟩ := targetRow_eq_some.mp ht
    refine targetRow_eq_some.mpr ⟨htlt, ?_, visibleBelow_merged hm t (by omega)⟩
    cases hg : merged.getLsbD t with
    | false => rfl
    | true =>
      rcases (hm t).mp hg with hp | ⟨r, -, hcur, hr⟩
      · rw [htvis] at hp
        simp at hp
      · rw [← (targetRow_eq_some.mp hr).2.2, hsvis] at hcur
        simp at hcur

theorem compact_compact (hw : 0 < width) (hw64 : width ≤ 64) (hcells : width * height ≤ 64)
    {board : Board} (hm : IsMerged height previous current merged) :
    compactTargetBoard width height (compactTargetBoard width height board previous) current =
      compactTargetBoard width height board merged := by
  refine board_ext hw fun y col hcol => ?_
  rw [compact_cell hw64 hcells _ _ hcol, compact_cell hw64 hcells _ _ hcol]
  constructor
  · rintro ⟨s, hs, hcell⟩
    obtain ⟨t, ht, hbit⟩ := (compact_cell hw64 hcells _ _ hcol).mp hcell
    exact ⟨t, (targetRow_merged hm).mpr ⟨s, hs, ht⟩, hbit⟩
  · rintro ⟨t, ht, hbit⟩
    obtain ⟨s, hs, ht⟩ := (targetRow_merged hm).mp ht
    exact ⟨s, hs, (compact_cell hw64 hcells _ _ hcol).mpr ⟨t, ht, hbit⟩⟩

/-! ## Locks in the target's frame -/

section

variable (hw : 0 < width) (hw64 : width ≤ 64) (hh : height ≤ 16) (hcells : width * height ≤ 64)

include hw hw64 hcells in
theorem compact_or (a b : Board) (deleted : Rows) :
    compactTargetBoard width height (a ||| b) deleted =
      compactTargetBoard width height a deleted ||| compactTargetBoard width height b deleted := by
  refine board_ext hw fun y col hcol => ?_
  rw [BitVec.getLsbD_or, Bool.or_eq_true, compact_cell hw64 hcells _ _ hcol,
    compact_cell hw64 hcells _ _ hcol, compact_cell hw64 hcells _ _ hcol]
  constructor
  · rintro ⟨t, ht, hbit⟩
    rw [BitVec.getLsbD_or, Bool.or_eq_true] at hbit
    exact hbit.imp (fun hbit => ⟨t, ht, hbit⟩) fun hbit => ⟨t, ht, hbit⟩
  · rintro (⟨t, ht, hbit⟩ | ⟨t, ht, hbit⟩)
    · exact ⟨t, ht, by rw [BitVec.getLsbD_or, hbit]; rfl⟩
    · exact ⟨t, ht, by rw [BitVec.getLsbD_or, hbit, Bool.or_true]⟩

include hw64 hh in
theorem fullRows_or (a b : Board) :
    fullRows width height a ||| fullRows width height (a ||| b) =
      fullRows width height (a ||| b) := by
  refine BitVec.eq_of_getLsbD_eq fun t _ => ?_
  rw [BitVec.getLsbD_or, Bool.eq_iff_iff, Bool.or_eq_true, or_iff_right_of_imp]
  rw [getLsbD_fullRows hh, getLsbD_fullRows hh, boardRow_eq_full_iff hw64,
    boardRow_eq_full_iff hw64]
  rintro ⟨htlt, hfull⟩
  refine ⟨htlt, fun col hcol => ?_⟩
  rw [BitVec.getLsbD_or, hfull col hcol]
  rfl

include hw hw64 hh hcells

theorem clear_compact (board : Board) (deleted : Rows) :
    ∃ cleared, placeAndClear width height (compactTargetBoard width height board deleted) =
        (compactTargetBoard width height board (deleted ||| fullRows width height board),
          cleared) ∧
      mergeDeletedRows height deleted cleared.1 =
        some (deleted ||| fullRows width height board) := by
  rw [placeAndClear_eq hh]
  generalize hcur : fullRows width height (compactTargetBoard width height board deleted) = current
  -- a row of the compacted board is full if the row it came from is
  have hrow : ∀ r, current.getLsbD r = true ↔ ∃ t, targetRowForCurrentRow height deleted r = some t ∧
      boardRow width board t = fullRowMask width := by
    intro r
    rw [← hcur, getLsbD_fullRows hh, boardRow_eq_full_iff hw64]
    constructor
    · rintro ⟨-, hcol⟩
      obtain ⟨t, ht, -⟩ := (compact_cell hw64 hcells _ _ hw).mp (hcol 0 hw)
      refine ⟨t, ht, (boardRow_eq_full_iff hw64).mpr fun col hc => ?_⟩
      obtain ⟨t', ht', hbit⟩ := (compact_cell hw64 hcells _ _ hc).mp (hcol col hc)
      rwa [Option.some.inj (ht.symm.trans ht')]
    · rintro ⟨t, ht, hboard⟩
      have htlt := (targetRow_eq_some.mp ht).1
      refine ⟨lt_of_le_of_lt (targetRow_le ht) htlt, fun col hc => ?_⟩
      exact (compact_cell hw64 hcells _ _ hc).mpr
        ⟨t, ht, (boardRow_eq_full_iff hw64).mp hboard col hc⟩
  obtain ⟨merged, hmerge, hmerged⟩ := mergeDeletedRows_spec deleted current hh
    fun r _ hr => ((hrow r).mp hr).imp fun t ht => ht.1
  have heq : merged = deleted ||| fullRows width height board := by
    refine BitVec.eq_of_getLsbD_eq fun t _ => ?_
    rw [BitVec.getLsbD_or, Bool.eq_iff_iff, Bool.or_eq_true, hmerged t, getLsbD_fullRows hh]
    refine or_congr_right' fun hdel => ⟨?_, fun ⟨htlt, hboard⟩ => ?_⟩
    · rintro ⟨r, -, hr, ht⟩
      obtain ⟨t', ht', hboard⟩ := (hrow r).mp hr
      rw [Option.some.inj (ht.symm.trans ht')]
      exact ⟨(targetRow_eq_some.mp ht').1, hboard⟩
    · have ht : targetRowForCurrentRow height deleted (visibleBelow deleted t) = some t :=
        targetRow_eq_some.mpr ⟨htlt, eq_false_of_ne_true hdel, rfl⟩
      exact ⟨_, lt_of_le_of_lt (visibleBelow_le deleted t) htlt, (hrow _).mpr ⟨t, ht, hboard⟩, ht⟩
  refine ⟨(current, countOnes current), ?_, by rw [← heq]; exact hmerge⟩
  rw [compact_compact hw hw64 hcells hmerged, heq]

omit hw hw64 hh hcells

/-- A lock on the board as it stands: what `place_and_clear` leaves, and the target rows gone so far
    with `merge_deleted_rows` of those it cleared. -/
def clearLock (width height : Nat) (state : Board × Rows) (cells : Board) :
    Option (Board × Rows) :=
  let (board, cleared, _) := placeAndClear width height (state.1 ||| cells)
  (mergeDeletedRows height state.2 cleared).map (board, ·)

/-- `target` is where the cells of a lock stand in the target's frame: in rows that are left. -/
structure PullsBack (width height : Nat) (deleted : Rows) (cells target : Board) : Prop where
  survives : ∀ k < 64, target.getLsbD k = true →
    k / width < height ∧ deleted.getLsbD (k / width) = false
  compacts : cells = compactTargetBoard width height target deleted

include hw hw64 hh hcells

theorem clearLock_compact (board target : Board) (deleted : Rows) :
    clearLock width height (compactTargetBoard width height board deleted, deleted)
        (compactTargetBoard width height target deleted) =
      some (compactTargetBoard width height (board ||| target)
          (deleted ||| fullRows width height (board ||| target)),
        deleted ||| fullRows width height (board ||| target)) := by
  obtain ⟨cleared, hclear, hmerge⟩ := clear_compact hw hw64 hh hcells (board ||| target) deleted
  simp only [clearLock, ← compact_or hw hw64 hcells, hclear, hmerge]
  rfl

/-- A lock unites its cells with the board of the target's frame and adds the rows that fill; so two
    locks with the same cells there end alike in either order. -/
theorem clearLock_target_frame (board : Board) (deleted : Rows) :
    (∀ cells target, PullsBack width height deleted cells target →
      ∃ gone : Rows, (∀ t, gone.getLsbD t = true ↔ deleted.getLsbD t = true ∨
          t < height ∧ deleted.getLsbD t = false ∧
            boardRow width (board ||| target) t = fullRowMask width) ∧
        clearLock width height (compactTargetBoard width height board deleted, deleted) cells =
          some (compactTargetBoard width height (board ||| target) gone, gone)) ∧
    ∀ (first second p q p' q' : Board) (afterFirst afterSecond : Board × Rows),
      PullsBack width height deleted p first → PullsBack width height deleted q second →
      clearLock width height (compactTargetBoard width height board deleted, deleted) p =
        some afterFirst →
      clearLock width height (compactTargetBoard width height board deleted, deleted) q =
        some afterSecond →
      PullsBack width height afterFirst.2 q' second →
      PullsBack width height afterSecond.2 p' first →
      clearLock width height afterFirst q' = clearLock width height afterSecond p' := by
  have hlock := clearLock_compact hw hw64 hh hcells
  constructor
  · rintro cells target ⟨-, rfl⟩
    refine ⟨_, fun t => ?_, hlock board target deleted⟩
    rw [BitVec.getLsbD_or, Bool.or_eq_true, getLsbD_fullRows hh]
    exact or_congr_right' fun hdel =>
      and_congr_right' (and_iff_right (eq_false_of_ne_true hdel)).symm
  · rintro first second p q p' q' afterFirst afterSecond ⟨-, rfl⟩ ⟨-, rfl⟩ hfirst hsecond hq hp
    rw [hlock, Option.some.injEq] at hfirst hsecond
    subst hfirst hsecond
    -- the rows the first lock fills are among those both fill
    have hrows : ∀ a b : Board, deleted ||| fullRows width height a |||
        fullRows width height (a ||| b) = deleted ||| fullRows width height (a ||| b) :=
      fun a b => by rw [BitVec.or_assoc, fullRows_or hw64 hh]
    have hcomm : board ||| second ||| first = board ||| first ||| second := by
      rw [BitVec.or_assoc, BitVec.or_comm second, ← BitVec.or_assoc]
    rw [hq.compacts, hp.compacts, hlock, hlock, hrows, hrows, hcomm]

end

/-- Two columns, the lowest row gone: one lock completes the row next to it, the other stands above
    and falls. -/
theorem clearLock_target_frame_two_columns :
    clearLock 2 3 (compactTargetBoard 2 3 4#64 1#16, 1#16) 2#64 = some (0#64, 3#16) ∧
    clearLock 2 3 (compactTargetBoard 2 3 4#64 1#16, 1#16) 4#64 = some (5#64, 1#16) ∧
    clearLock 2 3 (0#64, 3#16) 1#64 = clearLock 2 3 (5#64, 1#16) 2#64 :=
  ⟨by decide, by decide, (clearLock_target_frame (by decide) (by decide) (by decide) (by decide)
    4#64 1#16).2 8#64 16#64 2#64 4#64 2#64 1#64 _ _ ⟨by decide, by decide⟩ ⟨by decide, by decide⟩
    (by decide) (by decide) ⟨by decide, by decide⟩ ⟨by decide, by decide⟩⟩

/-- Without columns every row counts as full, also the one that is not there any more. -/
theorem clearLock_no_columns : PullsBack 0 1 1#16 0#64 0#64 ∧
    clearLock 0 1 (compactTargetBoard 0 1 0#64 1#16, 1#16) 0#64 = none :=
  ⟨⟨by decide, by decide⟩, by decide⟩

end Clearra.Proof.Executor
