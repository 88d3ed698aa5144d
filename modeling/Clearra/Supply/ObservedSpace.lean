import Clearra.Executor.Rows
import Clearra.Supply.ObservedExpansion

/-!
# The observed universe, lazily (`pattern_universe/observed_standard_7_bag_sequence_space.rs`)

The same language as the expansion, without listing it: for every boundary candidate the place in the
bag the observed prefix leaves, and how many queues go on from there. A sequence is found from its
index by these counts.
-/

namespace Clearra.Supply

open Lib

/-- `BAG_SIZE`. -/
def observedBagSize : Nat := 7

/-- `FULL_BAG_PERMUTATIONS`. -/
def fullBagPermutations : Nat := 5040

inductive ObservedStandard7BagSequenceSpaceError where
  | sequenceTooShort
  | incompatibleBoundary
  | invalidBoundaryOffset
  | noPatterns
  | patternCountOverflow
  | patternIndexOutOfRange
  | rankInvariantViolated
  deriving DecidableEq

/-- The pieces of the current bag, one bit each. -/
abbrev UsedMask := BitVec 8

structure CandidateState where
  initialOffset : Nat
  offset : Nat
  usedMask : UsedMask
  suffixCount : Nat

structure ObservedStandard7BagSequenceSpace where
  observed : List PieceKind
  sequenceLen : Nat
  candidates : List CandidateState
  patternCount : Nat
  totalPatternCount : Nat

def pieceBit (piece : PieceKind) : UsedMask := 1#8 <<< piece.index

def normalizedState (offset : Nat) (usedMask : UsedMask) :
    Except ObservedStandard7BagSequenceSpaceError (Nat × UsedMask) :=
  if offset = observedBagSize then .ok (0, 0)
  else if offset ≤ 6 then .ok (offset, usedMask)
  else .error .invalidBoundaryOffset

def prefixState (observed : List PieceKind) (initialOffset : Nat) :
    Except ObservedStandard7BagSequenceSpaceError (Nat × UsedMask) :=
  observed.foldlM (fun state piece => do
    let (offset, usedMask) ← normalizedState state.1 state.2
    refuseIf (usedMask &&& pieceBit piece ≠ 0) .incompatibleBoundary
    pure (offset + 1, usedMask ||| pieceBit piece)) (initialOffset, 0)

/-- `u128::checked_mul`. -/
def checkedMulU128 (a b : Nat) : Option Nat := if a * b ≤ u128Max then some (a * b) else none

/-- `u128::checked_add`. -/
def checkedAddU128 (a b : Nat) : Option Nat := if a + b ≤ u128Max then some (a + b) else none

def checkedFallingFactorial (value count : Nat) : Option Nat :=
  if count > value then some 0
  else (List.range count).foldlM (fun product index => checkedMulU128 product (value - index)) 1

def alignedSuffixCount (remaining : Nat) : Option Nat := do
  let count ← (List.range (remaining / observedBagSize)).foldlM
    (fun count _ => checkedMulU128 count fullBagPermutations) 1
  let tail ← checkedFallingFactorial observedBagSize (remaining % observedBagSize)
  checkedMulU128 count tail

def checkedSub (a b : Nat) : Option Nat := if b ≤ a then some (a - b) else none

def countFromState (remaining offset : Nat) (usedMask : UsedMask) : Option Nat :=
  if remaining = 0 then some 1
  else do
    let (offset, usedMask) ← (normalizedState offset usedMask).toOption
    let slotsBeforeBoundary ← checkedSub observedBagSize offset
    let drawsBeforeBoundary := min remaining slotsBeforeBoundary
    let availablePieces ← checkedSub observedBagSize (Executor.countOnes usedMask)
    let prefixCount ← checkedFallingFactorial availablePieces drawsBeforeBoundary
    let alignedCount ← alignedSuffixCount (remaining - drawsBeforeBoundary)
    checkedMulU128 prefixCount alignedCount

/-- `ok_or(..)?`. -/
def orRefuse {α : Type} (e : ObservedStandard7BagSequenceSpaceError) :
    Option α → Except ObservedStandard7BagSequenceSpaceError α
  | some a => .ok a
  | none => .error e

/-- One candidate of the loop of `new`: the states so far and the total. -/
def addCandidate (observed : List PieceKind) (remaining : Nat)
    (found : List CandidateState × Nat) (initialOffset : Nat) :
    Except ObservedStandard7BagSequenceSpaceError (List CandidateState × Nat) := do
  let (offset, usedMask) ← prefixState observed initialOffset
  let suffixCount ← orRefuse .patternCountOverflow (countFromState remaining offset usedMask)
  if suffixCount = 0 then pure found
  else do
    let total ← orRefuse .patternCountOverflow (checkedAddU128 found.2 suffixCount)
    pure (found.1 ++ [⟨initialOffset, offset, usedMask, suffixCount⟩], total)

/-- The first piece, in their order, whose branch the rank falls into. -/
def selectBranch (remaining offset : Nat) (usedMask : UsedMask) :
    List PieceKind → Nat →
      Except ObservedStandard7BagSequenceSpaceError (PieceKind × Nat × UsedMask × Nat)
  | [], _ => .error .rankInvariantViolated
  | piece :: pieces, rank =>
    if usedMask &&& pieceBit piece ≠ 0 then selectBranch remaining offset usedMask pieces rank
    else do
      let branchCount ← orRefuse .patternCountOverflow
        (countFromState remaining (offset + 1) (usedMask ||| pieceBit piece))
      if rank < branchCount then pure (piece, offset + 1, usedMask ||| pieceBit piece, rank)
      else selectBranch remaining offset usedMask pieces (rank - branchCount)

/-- The loop of `write_sequence`. -/
def writeSuffix : Nat → Nat → UsedMask → Nat →
    Except ObservedStandard7BagSequenceSpaceError (List PieceKind)
  | 0, _, _, _ => pure []
  | remaining + 1, offset, usedMask, rank => do
    let (offset, usedMask) ← normalizedState offset usedMask
    let (piece, offset, usedMask, rank) ←
      selectBranch remaining offset usedMask PieceKind.standardTetrominoes rank
    let suffix ← writeSuffix remaining offset usedMask rank
    pure (piece :: suffix)

/-- The candidate the rank falls into, and the rank in it. -/
def selectCandidate : List CandidateState → Nat →
    Except ObservedStandard7BagSequenceSpaceError (CandidateState × Nat)
  | [], _ => .error .patternIndexOutOfRange
  | candidate :: candidates, rank =>
    if rank < candidate.suffixCount then pure (candidate, rank)
    else selectCandidate candidates (rank - candidate.suffixCount)

namespace ObservedStandard7BagSequenceSpace

def new (observed : List PieceKind) (sequenceLen : Nat) :
    Except ObservedStandard7BagSequenceSpaceError ObservedStandard7BagSequenceSpace := do
  refuseIf (sequenceLen < observed.length) .sequenceTooShort
  let report := analyzeObservedWindow observed observedBagSize
  refuseIf (report = []) .incompatibleBoundary
  let (candidates, totalPatternCount) ←
    report.foldlM (addCandidate observed (sequenceLen - observed.length)) ([], 0)
  refuseIf (candidates.length = 0 ∨ totalPatternCount = 0) .noPatterns
  refuseIf (totalPatternCount > usizeMax) .patternCountOverflow
  pure ⟨observed, sequenceLen, candidates, totalPatternCount, totalPatternCount⟩

def len (space : ObservedStandard7BagSequenceSpace) : Nat := space.patternCount

/-- `write_sequence` into a cleared buffer. -/
def sequence (space : ObservedStandard7BagSequenceSpace) (index : Nat) :
    Except ObservedStandard7BagSequenceSpaceError (List PieceKind) := do
  refuseIf (index ≥ space.patternCount) .patternIndexOutOfRange
  let (candidate, rank) ← selectCandidate space.candidates index
  let suffix ← writeSuffix (space.sequenceLen - space.observed.length) candidate.offset
    candidate.usedMask rank
  pure (space.observed ++ suffix)

end ObservedStandard7BagSequenceSpace

end Clearra.Supply
