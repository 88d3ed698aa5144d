import Clearra.Supply.Automaton

/-!
# The closed-form hold projection (`pattern_universe/hold_multiset_reachability.rs`)

`ReachableMultisetWorkspace::reachable_multisets` answers "which multisets of `n` pieces can be
placed from this queue" without running anything: an occupied hold consumes exactly `n` queue
pieces and keeps one of the `n + 1` in hand, an empty one consumes `n` and stays empty or
consumes `n + 1` and keeps one. The workspace's only state is the result vector it clears first,
so it is a function here.
-/

namespace Clearra.Supply

/-- `available.get(..n)`. -/
def getPrefix (available : List PieceKind) (n : Nat) : Option (List PieceKind) :=
  if n ≤ available.length then some (available.take n) else none

/-- `record_final_hold_options`: for every piece that may be left in the hold at the end — the
    initial one or any drawn one — the available multiset with that piece taken out. -/
def recordFinalHoldOptions (availableMultiset : PieceMultisetKey)
    (initialHold : Option PieceKind) (drawnPrefix : List PieceKind) : List PieceMultisetKey :=
  PieceKind.standardTetrominoes.filterMap fun piece =>
    if initialHold = some piece ∨ piece ∈ drawnPrefix then availableMultiset.remove piece
    else none

/-- `reachable_multisets(sequence, placed_piece_count, initial_hold, hold_enabled)`. -/
def reachableMultisets (sequence : List PieceKind) (placedPieceCount : Nat)
    (initialHold : SupplyExecutionState) (holdEnabled : Bool) : List PieceMultisetKey :=
  let startCursor := initialHold.cursor.toNat
  if startCursor > sequence.length then []
  else
    let available := sequence.drop startCursor
    if !holdEnabled then
      match getPrefix available placedPieceCount with
      | some drawn => [PieceMultisetKey.fromPieces drawn]
      | none => []
    else
      match initialHold.holdPiece with
      | some initialPiece =>
        match getPrefix available placedPieceCount with
        | none => []
        | some drawn =>
          Lib.sortDedup <|
            recordFinalHoldOptions ((PieceMultisetKey.fromPieces drawn).push initialPiece)
              (some initialPiece) drawn
      | none =>
        let unused :=
          match getPrefix available placedPieceCount with
          | some drawn => [PieceMultisetKey.fromPieces drawn]
          | none => []
        let used :=
          match getPrefix available (placedPieceCount + 1) with
          | some drawn =>
            recordFinalHoldOptions (PieceMultisetKey.fromPieces drawn) none drawn
          | none => []
        Lib.sortDedup (unused ++ used)

end Clearra.Supply
