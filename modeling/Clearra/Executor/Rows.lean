import Clearra.Executor.Reachability

/-!
# Rows, clears and compaction (`wasm_cpu/buildup.rs`, `wasm_cpu/catalog.rs`)

A *target row* is a row of the board before anything has been cleared, a *current row* one of the
board as it stands. The rows cleared so far are a `u16` of target rows, and the current board is
what remains when they are taken out and the rest falls down. Every function here converts between
the two numberings or between the boards.
-/

namespace Clearra.Executor

/-- A set of rows, one bit each. -/
abbrev Rows := BitVec 16

/-- `1_u16 << row`. -/
def rowBit (row : Nat) : Rows := 1#16 <<< row

/-- `rows & (1_u16 << row) != 0`. -/
def hasRow (rows : Rows) (row : Nat) : Bool := (rows &&& rowBit row) ≠ 0

/-- `count_ones()`. -/
def countOnes {w : Nat} (x : BitVec w) : Nat := (List.range w).countP fun i => x.getLsbD i

/-- `full_row_mask`. -/
def fullRowMask (width : Nat) : Board :=
  if width = 64 then BitVec.allOnes 64 else bit width - 1

/-- `(board >> (row * width)) & full_row_mask(width)`. -/
def boardRow (width : Nat) (board : Board) (row : Nat) : Board :=
  (board >>> (row * width)) &&& fullRowMask width

/-- `lower_row_mask`: the rows below. -/
def lowerRowMask (row : Nat) : Rows := if row = 0 then 0 else rowBit row - 1

/-- `occupied_rows`: the loop pops set bits from the lowest up. -/
def occupiedRows (width : Nat) (cells : Board) : Rows :=
  (List.range 64).foldl
    (fun rows cell => if cells.getLsbD cell then rows ||| rowBit (cell / width) else rows) 0

/-- Counting visible rows until the wanted one. -/
def targetRowLoop (deletedRows : Rows) (currentRow : Nat) : List Nat → Nat → Option Nat
  | [], _ => none
  | targetRow :: rest, visibleRow =>
    if hasRow deletedRows targetRow then targetRowLoop deletedRows currentRow rest visibleRow
    else if visibleRow = currentRow then some targetRow
    else targetRowLoop deletedRows currentRow rest (visibleRow + 1)

def targetRowForCurrentRow (height : Nat) (deletedRows : Rows) (currentRow : Nat) : Option Nat :=
  targetRowLoop deletedRows currentRow (List.range height) 0

/-- `merge_deleted_rows`: `current` is in current rows, the result in target rows. -/
def mergeDeletedRows (height : Nat) (previous current : Rows) : Option Rows :=
  ((List.range height).foldlM
    (fun original currentRow =>
      if hasRow current currentRow then
        (targetRowForCurrentRow height previous currentRow).map (original ||| rowBit ·)
      else some original)
    0).map (previous ||| ·)

/-- What the clearing loop has: the rows kept so far, the rows cleared, how many were kept. -/
structure ClearState where
  compacted : Board
  cleared : Rows
  outputRow : Nat

def clearStep (width : Nat) (board : Board) (st : ClearState) (inputRow : Nat) : ClearState :=
  if boardRow width board inputRow = fullRowMask width then
    { st with cleared := st.cleared ||| rowBit inputRow }
  else
    { st with
      compacted := st.compacted ||| (boardRow width board inputRow <<< (st.outputRow * width))
      outputRow := st.outputRow + 1 }

/-- `place_and_clear`: the board without its full rows, and which rows those were. -/
def placeAndClear (width height : Nat) (board : Board) : Board × Rows × Nat :=
  let st := (List.range height).foldl (clearStep width board) ⟨0, 0, 0⟩
  (st.compacted, st.cleared, countOnes st.cleared)

def placementIsGrounded (width : Nat) (board placement : Board) : Bool :=
  (placement &&& fullRowMask width) ≠ 0 || ((placement >>> width) &&& board) ≠ 0

/-- `compact_target_board`: the target board without the deleted rows. -/
def compactTargetBoard (width height : Nat) (board : Board) (deletedRows : Rows) : Board :=
  ((List.range height).foldl
    (fun st targetRow =>
      if hasRow deletedRows targetRow then st
      else (st.1 ||| (boardRow width board targetRow <<< (st.2 * width)), st.2 + 1))
    ((0 : Board), 0)).1

end Clearra.Executor
