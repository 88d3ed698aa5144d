import Clearra.Supply.ObservedSpace

/-!
# Pattern universes (`pattern_universe/materialized_pattern_universe.rs`,
`pattern_universe/standard_7_bag_sequence_space.rs`, `queue/queue_pattern_expression.rs`)

A universe holds the queues a search is over: listed one by one, or compactly. A compact storage finds
a queue from its index: in the lexicographic order of whole bags, or atom by atom of an expression,
where an atom is a draw of some pieces out of a set.

Where the source would panic the result is `none`.
-/

namespace Clearra.Supply

/-! ## Whole bags -/

/-- `FULL_STANDARD_BAG`. -/
def fullStandardBag : UsedMask := 0x7f#8

structure Standard7BagSequenceSpace where
  sequenceLen : Nat
  patternCount : Nat
  deriving DecidableEq

/-- `falling_factorial`. -/
def fallingFactorial (value count : Nat) : Nat :=
  (List.range count).foldl (fun product index => product * (value - index)) 1

/-- `suffix_count` from a full bag. -/
def fullBagSuffixCount : Nat → Nat
  | remaining + 8 => min (fallingFactorial 7 7 * fullBagSuffixCount (remaining + 1)) u128Max
  | remaining => fallingFactorial 7 remaining

def suffixCount (remaining : Nat) (available : UsedMask) : Nat :=
  let availableCount := Executor.countOnes available
  if remaining ≤ availableCount then fallingFactorial availableCount remaining
  else min (fallingFactorial availableCount availableCount *
    fullBagSuffixCount (remaining - availableCount)) u128Max

/-- The piece the rank falls to, and the rank among the queues that start with it. -/
def selectPiece (remaining : Nat) (available : UsedMask) : List PieceKind → Nat →
    Option (PieceKind × Nat)
  | [], _ => none
  | piece :: pieces, rank =>
    if available &&& pieceBit piece = 0 then selectPiece remaining available pieces rank
    else
      let branchSize := suffixCount remaining (available &&& ~~~pieceBit piece)
      if rank < branchSize then some (piece, rank)
      else selectPiece remaining available pieces (rank - branchSize)

/-- The loop of `write_sequence`. -/
def writeBags : Nat → UsedMask → Nat → Option (List PieceKind)
  | 0, _, _ => some []
  | remaining + 1, available, rank => do
    let available := if available = 0 then fullStandardBag else available
    let (piece, rank) ← selectPiece remaining available PieceKind.standardTetrominoes rank
    let pieces ← writeBags remaining (available &&& ~~~pieceBit piece) rank
    some (piece :: pieces)

def Standard7BagSequenceSpace.sequence (space : Standard7BagSequenceSpace) (index : Nat) :
    Option (List PieceKind) :=
  if index < space.patternCount then writeBags space.sequenceLen fullStandardBag index else none

/-! ## Expressions -/

structure FactorizedPatternAtom where
  choices : List PieceKind
  drawCount : Nat
  variantCount : Nat
  deriving DecidableEq

structure FactorizedQueuePatternSpace where
  atoms : List FactorizedPatternAtom
  patternCount : Nat
  fullSequenceLen : Nat
  visibleSequenceLen : Nat
  deriving DecidableEq

/-- The loop of `append_variant`, for a rank below the number of variants. -/
def appendVariant : List PieceKind → Nat → Nat → Option (List PieceKind)
  | _, 0, _ => some []
  | available, remaining + 1, rank => do
    let branchSize := fallingFactorial (available.length - 1) remaining
    let piece ← available[rank / branchSize]?
    let pieces ← appendVariant (available.eraseIdx (rank / branchSize)) remaining (rank % branchSize)
    some (piece :: pieces)

/-- The loop of `write_sequence`. -/
def writeAtoms (visibleSequenceLen : Nat) :
    List FactorizedPatternAtom → Nat → Nat → List PieceKind → Option (List PieceKind)
  | [], _, _, output => some output
  | atom :: atoms, remainingIndex, suffixCount, output => do
    let suffixCount := suffixCount / atom.variantCount
    guard (suffixCount ≠ 0)
    let variant ← appendVariant atom.choices atom.drawCount (remainingIndex / suffixCount)
    let output := output ++ variant
    if output.length ≥ visibleSequenceLen then some (output.take visibleSequenceLen)
    else writeAtoms visibleSequenceLen atoms (remainingIndex % suffixCount) suffixCount output

def FactorizedQueuePatternSpace.sequence (space : FactorizedQueuePatternSpace) (index : Nat) :
    Option (List PieceKind) :=
  if index < space.patternCount then
    writeAtoms space.visibleSequenceLen space.atoms index space.patternCount []
  else none

inductive QueuePatternExpression where
  | explicit (sequences : List (List PieceKind))
  | factorized (space : FactorizedQueuePatternSpace)
  deriving DecidableEq

namespace QueuePatternExpression

def patternCount : QueuePatternExpression → Nat
  | explicit sequences => sequences.length
  | factorized space => space.patternCount

def sequenceAt (index : Nat) : QueuePatternExpression → Option (List PieceKind)
  | explicit sequences => sequences[index]?
  | factorized space => space.sequence index

def factorizedShape : QueuePatternExpression → Option FactorizedQueuePatternSpace
  | factorized space => some space
  | explicit _ => none

end QueuePatternExpression

/-! ## Universes -/

inductive WeightStorage where
  | explicit (weights : List ProbabilityValue)
  | uniform (weight : ProbabilityValue) (count : Nat)
  | uniformWithTerminalRemainder (weight terminalWeight : ProbabilityValue) (count : Nat)
  deriving DecidableEq

/-- `WeightedPatternSet::uniform(..).ok()`. -/
def WeightStorage.uniformOf (patternCount : Nat) : Option WeightStorage := do
  guard (patternCount ≠ 0)
  let weight ← (ProbabilityValue.new (Lib.binary64 (1 / Lib.binary64 patternCount))).toOption
  guard (Lib.binary64 (weight.value * Lib.binary64 patternCount) ≤ Lib.binary64 (1 + 2 ^ (-52 : ℤ)))
  some (.uniform weight patternCount)

inductive PatternSequenceStorage where
  | explicit (sequences : List (List PieceKind))
  | standard7BagLexicographic (space : Standard7BagSequenceSpace)
  | observedStandard7BagLexicographic (space : ObservedStandard7BagSequenceSpace)
  | factorizedQueueExpression (expression : QueuePatternExpression)

namespace PatternSequenceStorage

def len : PatternSequenceStorage → Nat
  | explicit sequences => sequences.length
  | standard7BagLexicographic space => space.patternCount
  | observedStandard7BagLexicographic space => space.len
  | factorizedQueueExpression expression => expression.patternCount

def sequence (index : Nat) : PatternSequenceStorage → Option (List PieceKind)
  | explicit sequences => sequences[index]?
  | standard7BagLexicographic space => space.sequence index
  | observedStandard7BagLexicographic space => (space.sequence index).toOption
  | factorizedQueueExpression expression => expression.sequenceAt index

end PatternSequenceStorage

inductive SupplyTruncationReason where
  | observedWindowBudgetExceeded | materializedPatternBudgetExceeded
  deriving DecidableEq

structure MaterializedPatternUniverse where
  sequences : PatternSequenceStorage
  weights : WeightStorage
  totalPossiblePatternCount : Nat
  complete : Bool
  truncationReason : Option SupplyTruncationReason

inductive UniformCompactPatternSource where
  | standard7Bag (sequenceLen patternCount : Nat)
  | factorizedExpression (shape : FactorizedQueuePatternSpace)

namespace MaterializedPatternUniverse

def patternCount (self : MaterializedPatternUniverse) : Nat := self.sequences.len

/-- `try_sequence_at`. -/
def trySequenceAt (self : MaterializedPatternUniverse) (index : Nat) : Option (List PieceKind) :=
  if index < self.patternCount then self.sequences.sequence index else none

/-- Read off the storage; the weights have to be the uniform ones. -/
def uniformCompactSource (self : MaterializedPatternUniverse) :
    Option UniformCompactPatternSource := do
  let uniform ← WeightStorage.uniformOf self.patternCount
  guard (self.weights = uniform)
  match self.sequences with
  | .standard7BagLexicographic space => some (.standard7Bag space.sequenceLen space.patternCount)
  | .factorizedQueueExpression expression =>
    expression.factorizedShape.map .factorizedExpression
  | .explicit _ => none
  | .observedStandard7BagLexicographic _ => none

end MaterializedPatternUniverse

end Clearra.Supply
