import Clearra.Domain.Piece
import Clearra.Lib.Binary64
import Clearra.Lib.Result

/-!
# Expanding an observed queue (`normalize/observed_queue_expansion.rs`,
`normalize/observed_suffix_enumerator.rs`, `diagnostics/duplicate_witness.rs`, `bag/bag_boundary.rs`)

Pieces come from bags, and an observed queue may start in the middle of one. Every offset at which
the queue has no piece too often in one bag is a boundary candidate. The expansion lists, candidate
by candidate, all queues of the wanted length that go on without such a duplicate, up to a limit, and
gives each the same probability.

Of an `f64` its value is kept, with rounding (`binary64`): all that occur are finite.
-/

namespace Clearra.Supply

open Lib

/-! ## Bags -/

structure BagProfileEntry where
  piece : PieceKind
  multiplicity : Nat
  weight : Nat

/-- What a bag holds, as `BagProfile::new` accepts it. -/
structure BagProfile where
  entries : List BagProfileEntry
  nonempty : entries ≠ []
  multiplicity_pos : ∀ entry ∈ entries, 0 < entry.multiplicity
  weight_pos : ∀ entry ∈ entries, 0 < entry.weight
  nodup : (entries.map BagProfileEntry.piece).Nodup

namespace BagProfile

def standard7 : BagProfile where
  entries := PieceKind.standardTetrominoes.map fun piece => ⟨piece, 1, 1⟩
  nonempty := by decide
  multiplicity_pos := by decide
  weight_pos := by decide
  nodup := by decide

variable (profile : BagProfile)

def pieces : List PieceKind := profile.entries.map BagProfileEntry.piece

def bagSize : Nat := (profile.entries.map BagProfileEntry.multiplicity).sum

def multiplicityFor (piece : PieceKind) : Nat :=
  match profile.entries.find? fun entry => entry.piece = piece with
  | some entry => entry.multiplicity
  | none => 0

end BagProfile

inductive PatternUniverseHint where
  | denseMaterializedAcceptable | sparseRecommended
  deriving DecidableEq

/-- `u128::MAX`. -/
def u128Max : Nat := 2 ^ 128 - 1

def BagProfile.patternUniverseHint (profile : BagProfile) (targetLen : Nat) : PatternUniverseHint :=
  let bagSize := max profile.bagSize 1
  let visibleDepth := min targetLen bagSize
  let branchCount := min (max profile.entries.length 1 ^ visibleDepth) u128Max
  let bagSpan := targetLen / bagSize + 1
  if min (branchCount * bagSpan) u128Max > 4096 then .sparseRecommended
  else .denseMaterializedAcceptable

/-! ## Duplicates -/

structure DuplicateWitness where
  piece : PieceKind
  firstIndex : Nat
  duplicateIndex : Nat
  bagStartIndex : Nat
  initialOffset : Nat
  deriving DecidableEq

/-- Where the scan is in its bag, and which pieces of it, with their first index, it has seen. -/
structure DuplicateScan where
  offset : Nat
  bagStartIndex : Nat
  seen : PieceKind → Option (Nat × Nat)

def duplicateLoop (profile : BagProfile) (initialOffset : Nat) :
    Nat → DuplicateScan → List PieceKind → Option DuplicateWitness
  | _, _, [] => none
  | index, scan, piece :: pieces =>
    let scan := if scan.offset = profile.bagSize then ⟨0, index, fun _ => none⟩ else scan
    let allowedMultiplicity := profile.multiplicityFor piece
    if allowedMultiplicity = 0 then some ⟨piece, index, index, scan.bagStartIndex, initialOffset⟩
    else
      let (firstIndex, count) := (scan.seen piece).getD (index, 0)
      if count + 1 > allowedMultiplicity then
        some ⟨piece, firstIndex, index, scan.bagStartIndex, initialOffset⟩
      else duplicateLoop profile initialOffset (index + 1)
        { scan with
          offset := scan.offset + 1
          seen := Function.update scan.seen piece (some (firstIndex, count + 1)) } pieces

def duplicateForBoundaryOffsetWithProfile (pieces : List PieceKind) (profile : BagProfile)
    (initialOffset : Nat) : Option DuplicateWitness :=
  if profile.bagSize = 0 ∨ initialOffset ≥ profile.bagSize then none
  else duplicateLoop profile initialOffset 0 ⟨initialOffset, 0, fun _ => none⟩ pieces

/-- The loop of `duplicate_for_boundary_offset` for a bag of another size than seven. -/
def plainDuplicateLoop (bagSize initialOffset : Nat) :
    Nat → Nat → Nat → (PieceKind → Option Nat) → List PieceKind → Option DuplicateWitness
  | _, _, _, _, [] => none
  | index, offset, bagStartIndex, seen, piece :: pieces =>
    let (offset, bagStartIndex, seen) :=
      if offset = bagSize then (0, index, fun _ => none) else (offset, bagStartIndex, seen)
    match seen piece with
    | some firstIndex => some ⟨piece, firstIndex, index, bagStartIndex, initialOffset⟩
    | none => plainDuplicateLoop bagSize initialOffset (index + 1) (offset + 1) bagStartIndex
        (Function.update seen piece (some index)) pieces

def duplicateForBoundaryOffset (pieces : List PieceKind) (bagSize initialOffset : Nat) :
    Option DuplicateWitness :=
  if bagSize = 7 then duplicateForBoundaryOffsetWithProfile pieces .standard7 initialOffset
  else if bagSize = 0 ∨ initialOffset ≥ bagSize then none
  else plainDuplicateLoop bagSize initialOffset 0 initialOffset 0 (fun _ => none) pieces

/-- `analyze_observed_window`: the candidates, by their initial offset. -/
def analyzeObservedWindow (pieces : List PieceKind) (bagSize : Nat) : List Nat :=
  (List.range bagSize).filter fun offset => (duplicateForBoundaryOffset pieces bagSize offset).isNone

def analyzeObservedWindowWithProfile (pieces : List PieceKind) (profile : BagProfile) : List Nat :=
  (List.range profile.bagSize).filter fun offset =>
    (duplicateForBoundaryOffsetWithProfile pieces profile offset).isNone

/-! ## Enumerating -/

/-- `for a in l { b = f(b, a); if stop(b) { break; } }`. -/
def foldUntil {α β : Type} (stop : β → Bool) (f : β → α → β) : β → List α → β
  | b, [] => b
  | b, a :: l => if stop (f b a) then f b a else foldUntil stop f (f b a) l

/-- The patterns so far, each with its boundary candidate, and whether there are more. -/
structure Enumeration where
  patterns : List (Nat × List PieceKind)
  truncated : Bool

/-- `enumerate_visible_suffixes_with_profile`, with as many pieces as the prefix lacks of the target
    length. -/
def enumerateVisibleSuffixes (profile : BagProfile) (initialOffset maxPatterns : Nat) :
    Nat → List PieceKind → Enumeration → Enumeration
  | 0, before, out =>
    if out.patterns.length ≥ maxPatterns then { out with truncated := true }
    else { out with patterns := out.patterns ++ [(initialOffset, before)] }
  | lacking + 1, before, out =>
    if out.patterns.length ≥ maxPatterns then { out with truncated := true }
    else foldUntil Enumeration.truncated (fun out piece =>
      if (duplicateForBoundaryOffsetWithProfile (before ++ [piece]) profile initialOffset).isNone then
        enumerateVisibleSuffixes profile initialOffset maxPatterns lacking (before ++ [piece]) out
      else out) out profile.pieces

/-! ## Counting -/

/-- `used_counts` is kept by piece, not by the index of its entry. -/
abbrev UsedCounts := PieceKind → Nat

abbrev SuffixMemo := List ((Nat × Nat × UsedCounts) × Nat)

/-- `u128::saturating_add`. -/
def saturatingAdd128 (a b : Nat) : Nat := min (a + b) u128Max

/-- `normalized_bag_state`. -/
def normalizedBagState (profile : BagProfile) (offset : Nat) (usedCounts : UsedCounts) :
    Nat × UsedCounts :=
  if offset = profile.bagSize then (0, fun _ => 0) else (offset, usedCounts)

def countSuffixes (profile : BagProfile) : Nat → Nat → UsedCounts → StateM SuffixMemo Nat
  | 0, _, _ => pure 1
  | remaining + 1, offset, usedCounts => do
    let state := normalizedBagState profile offset usedCounts
    let key := (remaining + 1, state.1, state.2)
    let memo ← get
    match memo.lookup key with
    | some count => pure count
    | none => do
      let count ← profile.entries.foldlM (fun count entry =>
        if state.2 entry.piece < entry.multiplicity then do
          let suffixes ← countSuffixes profile remaining (state.1 + 1)
            (Function.update state.2 entry.piece (state.2 entry.piece + 1))
          pure (saturatingAdd128 count suffixes)
        else pure count) 0
      modify ((key, count) :: ·)
      pure count

/-- One piece of the prefix; `entry_index` is `none` for a piece the bag does not have. -/
def boundaryStep (profile : BagProfile) (state : Nat × UsedCounts) (piece : PieceKind) :
    Option (Nat × UsedCounts) :=
  let (offset, usedCounts) := normalizedBagState profile state.1 state.2
  match profile.entries.find? fun entry => entry.piece = piece with
  | none => none
  | some entry =>
    if usedCounts piece + 1 > entry.multiplicity then none
    else some (offset + 1, Function.update usedCounts piece (usedCounts piece + 1))

def boundaryStateAfterPrefix (profile : BagProfile) (pieces : List PieceKind) (initialOffset : Nat) :
    Option (Nat × UsedCounts) :=
  pieces.foldlM (boundaryStep profile) (initialOffset, fun _ => 0)

def countVisibleSuffixesForCandidate (profile : BagProfile) (before : List PieceKind)
    (targetLen initialOffset : Nat) : Option Nat :=
  (boundaryStateAfterPrefix profile before initialOffset).map fun (offset, usedCounts) =>
    (countSuffixes profile (targetLen - before.length) offset usedCounts []).1

/-- `None` where a count is, or where the total is zero. -/
def totalVisibleSuffixCount (profile : BagProfile) (before : List PieceKind) (targetLen : Nat)
    (boundaryCandidates : List Nat) : Option Nat := do
  let total ← boundaryCandidates.foldlM (fun total candidate => do
    let count ← countVisibleSuffixesForCandidate profile before targetLen candidate
    pure (saturatingAdd128 total count)) 0
  if total > 0 then some total else none

/-! ## Probabilities -/

inductive ProbabilityValueError where
  | outOfRange
  deriving DecidableEq

structure ProbabilityValue where
  value : ℚ
  nonneg : 0 ≤ value
  le_one : value ≤ 1
  deriving DecidableEq

def ProbabilityValue.new (value : ℚ) : Except ProbabilityValueError ProbabilityValue :=
  if h : 0 ≤ value ∧ value ≤ 1 then .ok ⟨value, h.1, h.2⟩ else .error .outOfRange

/-- The last of a complete list takes what is left of one. -/
def materializedWeight (materializedCount totalPatternCount index : Nat) : ℚ :=
  let uniform := binary64 (1 / binary64 totalPatternCount)
  if materializedCount = totalPatternCount ∧ index + 1 = materializedCount then
    binary64 (1 - binary64 (uniform * binary64 (materializedCount - 1 : Nat)))
  else uniform

def materializedProbabilities (materializedCount totalPatternCount : Nat) :
    Except ProbabilityValueError (List ProbabilityValue) :=
  (List.range materializedCount).mapM fun index =>
    ProbabilityValue.new (materializedWeight materializedCount totalPatternCount index)

inductive WeightedPatternSetError where
  | totalWeightExceedsOne
  deriving DecidableEq

/-- `WeightedPatternSet::new`: the weights, if their sum is one up to rounding. -/
def weightedPatternSet (weights : List ProbabilityValue) :
    Except WeightedPatternSetError (List ProbabilityValue) :=
  let total := weights.foldl (fun total weight => binary64 (total + weight.value)) 0
  let summationTolerance := binary64
    (binary64 (2 ^ (-52 : ℤ) * binary64 (max weights.length 1 : Nat)) * 2)
  if total > binary64 (1 + summationTolerance) then .error .totalWeightExceedsOne
  else .ok weights

/-! ## The expansion -/

structure ObservedQueuePattern where
  patternIndex : Nat
  boundaryCandidate : Nat
  queuePattern : List PieceKind
  probability : ProbabilityValue

inductive ObservedQueuePatternSetError where
  | emptyPatternSet
  | materializedPatternsExceedTotal (materialized total : Nat)
  | nonContiguousPatternIndex (expected actual : Nat)
  | weights (e : WeightedPatternSetError)
  deriving DecidableEq

structure ObservedQueuePatternSet where
  patterns : List ObservedQueuePattern
  weights : List ProbabilityValue
  totalPatternCount : Nat
  patternUniverseHint : PatternUniverseHint

/-- The index of each pattern is its position. -/
def checkIndices : Nat → List ObservedQueuePattern → Except ObservedQueuePatternSetError Unit
  | _, [] => pure ()
  | expected, pattern :: patterns => do
    refuseIf (pattern.patternIndex ≠ expected)
      (.nonContiguousPatternIndex expected pattern.patternIndex)
    checkIndices (expected + 1) patterns

def ObservedQueuePatternSet.new (patterns : List ObservedQueuePattern) (totalPatternCount : Nat)
    (patternUniverseHint : PatternUniverseHint) :
    Except ObservedQueuePatternSetError ObservedQueuePatternSet := do
  refuseIf (patterns = []) .emptyPatternSet
  refuseIf (totalPatternCount < patterns.length)
    (.materializedPatternsExceedTotal patterns.length totalPatternCount)
  checkIndices 0 patterns
  let weights ← (weightedPatternSet (patterns.map ObservedQueuePattern.probability)).mapError .weights
  pure ⟨patterns, weights, totalPatternCount, patternUniverseHint⟩

inductive ObservedQueueExpansionError where
  | zeroPatternLimit
  | incompatibleBoundary
  | noPatterns
  | probability (e : ProbabilityValueError)
  | patternSet (e : ObservedQueuePatternSetError)
  deriving DecidableEq

structure ObservedQueueExpansion where
  boundaryCandidates : List Nat
  patternSet : ObservedQueuePatternSet
  truncated : Bool

/-- The patterns with their index and probability. -/
def numberPatterns (rawPatterns : List (Nat × List PieceKind)) (probabilities : List ProbabilityValue) :
    List ObservedQueuePattern :=
  (rawPatterns.zipIdx.zip probabilities).map fun ((raw, index), probability) =>
    ⟨index, raw.1, raw.2, probability⟩

namespace ObservedQueueExpansion

/-- `expand_observed_queue`. -/
def expandWithBagProfile (queue : List PieceKind) (minimumLen maxPatterns : Nat)
    (profile : BagProfile) : Except ObservedQueueExpansionError ObservedQueueExpansion := do
  refuseIf (maxPatterns = 0) .zeroPatternLimit
  let boundaryCandidates := analyzeObservedWindowWithProfile queue profile
  refuseIf (boundaryCandidates = []) .incompatibleBoundary
  let targetLen := max minimumLen queue.length
  match totalVisibleSuffixCount profile queue targetLen boundaryCandidates with
  | none => .error .noPatterns
  | some totalPatternCount => do
    let out := foldUntil Enumeration.truncated (fun out candidate =>
      enumerateVisibleSuffixes profile candidate maxPatterns (targetLen - queue.length) queue out)
      ⟨[], false⟩ boundaryCandidates
    let probabilities ←
      (materializedProbabilities out.patterns.length totalPatternCount).mapError .probability
    let patternSet ← (ObservedQueuePatternSet.new (numberPatterns out.patterns probabilities)
      totalPatternCount (profile.patternUniverseHint targetLen)).mapError .patternSet
    pure ⟨boundaryCandidates, patternSet, out.truncated⟩

def expand (queue : List PieceKind) (minimumLen maxPatterns : Nat) :
    Except ObservedQueueExpansionError ObservedQueueExpansion :=
  expandWithBagProfile queue minimumLen maxPatterns .standard7

/-- The queues of the patterns, in order. -/
def queues (expansion : ObservedQueueExpansion) : List (List PieceKind) :=
  expansion.patternSet.patterns.map ObservedQueuePattern.queuePattern

end ObservedQueueExpansion

end Clearra.Supply
