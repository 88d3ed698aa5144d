import Clearra.Supply.CompactUnion
import Clearra.Supply.Unicode

/-!
# The queue-pattern language (`queue/queue_pattern_expression.rs`)

A source is one or more alternatives, an alternative a row of atoms: a piece, `P` and a count, `*` or a
group in brackets. A single alternative is kept as a product of its atoms' draws; several are written
out and sorted. Each way has a parser of its own for atoms; both read the text alike (`readAtom`) and
differ in what they make of it.

The length of a sequence is not checked for overflow: an accepted text has at most 64 atoms with more
than one variant, and every other draws one piece.
-/

namespace Clearra.Supply

open Lib PieceKind

/-- The characters of the language: pieces, `P`, digits and signs. -/
def patternAlphabet : List Char :=
  ['I', 'O', 'T', 'S', 'Z', 'J', 'L', 'P', '0', '1', '2', '3', '4', '5', '6', '7', '8', '9',
    '*', '[', ']', '^', '!', ';']

inductive QueuePatternParseError where
  | empty | emptyAlternative | emptySequence | unclosedGroup | mixedSequenceLengths
  | emptyGroup (index : Nat)
  | unexpectedCharacter (index : Nat) (value : Char)
  | missingPermutationCount (index : Nat)
  | invalidPermutationCount (index : Nat)
  | permutationCountOutOfRange (index count available : Nat)
  | patternLimitExceeded (limit : Nat)
  deriving DecidableEq

abbrev Parse := Except QueuePatternParseError

/-- `PieceKind::from_ascii`. -/
def fromAscii (value : Char) : Option PieceKind :=
  match value.toUpper with
  | 'I' => some I
  | 'O' => some O
  | 'T' => some T
  | 'S' => some S
  | 'Z' => some Z
  | 'J' => some J
  | 'L' => some L
  | _ => none

/-- What is left to read, and the index of its first character. -/
structure Cursor where
  index : Nat
  rest : List Char

/-! ## Atoms -/

def parseCount (index : Nat) (cursor : Cursor) : Parse (Nat × Cursor) := do
  let digits := cursor.rest.takeWhile Char.isDigit
  refuseIf (digits = []) (.missingPermutationCount index)
  let count := digits.foldl (fun n digit => n * 10 + (digit.toNat - 48)) 0
  refuseIf (count > usizeMax) (.invalidPermutationCount index)
  return (count, ⟨cursor.index + digits.length, cursor.rest.dropWhile Char.isDigit⟩)

/-- The loop of `parse_group`. -/
def groupPieces : Nat → List PieceKind → List Char → Parse (List PieceKind × Cursor)
  | _, _, [] => .error .unclosedGroup
  | index, choices, value :: rest =>
    if value = ']' then .ok (choices, ⟨index + 1, rest⟩)
    else
      match fromAscii value with
      | none => .error (.unexpectedCharacter index value)
      | some piece =>
        groupPieces (index + 1) (if piece ∈ choices then choices else choices ++ [piece]) rest

/-- `parse_group`, after its bracket. -/
def parseGroup (start : Nat) (rest : List Char) : Parse (List PieceKind × Cursor) := do
  let complement := rest.head? = some '^'
  let listed := if complement then groupPieces (start + 2) [] rest.tail
    else groupPieces (start + 1) [] rest
  let (choices, cursor) ← listed
  let choices := if complement then standardTetrominoes.filter (· ∉ choices) else choices
  refuseIf (choices = []) (.emptyGroup start)
  return (choices.insertionSort (· ≤ ·), cursor)

/-- What an atom says: so many different pieces of some, or any one of them. -/
inductive AtomText where
  | draw (choices : List PieceKind) (count : Nat)
  | choice (choices : List PieceKind)

/-- What may follow choices. -/
def readSuffix (start : Nat) (acceptsCountSuffix : Bool) (choices : List PieceKind) (cursor : Cursor) :
    Parse (AtomText × Cursor) :=
  if cursor.rest.head? = some '!' then
    .ok (.draw choices choices.length, ⟨cursor.index + 1, cursor.rest.tail⟩)
  else if acceptsCountSuffix ∧ cursor.rest.head?.any Char.isDigit then do
    let (count, cursor) ← parseCount start cursor
    return (.draw choices count, cursor)
  else do
    refuseIf (cursor.rest.head? = some 'P') (.unexpectedCharacter cursor.index 'P')
    return (.choice choices, cursor)

/-- What `parse_factorized_atom` and `parse_atom` do with the text. -/
def readAtom (start : Nat) (value : Char) (rest : List Char) : Parse (AtomText × Cursor) :=
  match fromAscii value with
  | some piece => .ok (.choice [piece], ⟨start + 1, rest⟩)
  | none =>
    if value = 'P' then do
      let (count, cursor) ← parseCount start ⟨start + 1, rest⟩
      return (.draw standardTetrominoes count, cursor)
    else if value = '*' then readSuffix start false standardTetrominoes ⟨start + 1, rest⟩
    else if value = '[' then do
      let (choices, cursor) ← parseGroup start rest
      readSuffix start true choices cursor
    else .error (.unexpectedCharacter start value)

/-- `FactorizedPatternAtom::new`; the checked factors are all positive, so only the product counts. -/
def FactorizedPatternAtom.new (index : Nat) (choices : List PieceKind) (drawCount : Nat) :
    Parse FactorizedPatternAtom := do
  let choices := sortDedup choices
  refuseIf (drawCount = 0 ∨ drawCount > choices.length)
    (.permutationCountOutOfRange index drawCount choices.length)
  let variantCount := fallingFactorial choices.length drawCount
  refuseIf (variantCount > usizeMax) (.patternLimitExceeded usizeMax)
  return ⟨choices, drawCount, variantCount⟩

/-- What `parse_factorized_atom` makes of it. -/
def factorizedAtom (start : Nat) : AtomText → Parse FactorizedPatternAtom
  | .draw choices count => FactorizedPatternAtom.new start choices count
  | .choice choices => FactorizedPatternAtom.new start choices 1

/-- The loop of `append_permutations`, for `count` more pieces; `used` holds the marked indices. -/
def appendPermutations (choices : List PieceKind) :
    Nat → List PieceKind → List Nat → List (List PieceKind)
  | 0, drawn, _ => [drawn]
  | count + 1, drawn, used => (List.range choices.length).flatMap fun index =>
    if index ∈ used then []
    else appendPermutations choices count (drawn ++ [choices.getD index I]) (index :: used)

def permutations (index : Nat) (choices : List PieceKind) (count : Nat) :
    Parse (List (List PieceKind)) := do
  refuseIf (count = 0 ∨ count > choices.length)
    (.permutationCountOutOfRange index count choices.length)
  return appendPermutations choices count [] []

/-- What `parse_atom` makes of it. -/
def expandedAtom (start : Nat) : AtomText → Parse (List (List PieceKind))
  | .draw choices count => permutations start choices count
  | .choice choices => .ok (choices.map ([·]))

/-! ## Alternatives -/

/-- The loops over the atoms of an alternative; every atom takes a character at least. -/
def foldAtoms {σ : Type} (step : Nat → AtomText → σ → Parse σ) : Nat → Cursor → σ → Parse σ
  | fuel + 1, ⟨index, value :: rest⟩, state => do
    let (text, cursor) ← readAtom index value rest
    foldAtoms step fuel cursor (← step index text state)
  | _, _, state => .ok state

/-- The body of the loop of `FactorizedQueuePatternSpace::parse`. -/
def FactorizedQueuePatternSpace.push (limit start : Nat) (text : AtomText)
    (space : FactorizedQueuePatternSpace) : Parse FactorizedQueuePatternSpace := do
  let atom ← factorizedAtom start text
  let patternCount := space.patternCount * atom.variantCount
  refuseIf (patternCount > usizeMax ∨ patternCount > limit) (.patternLimitExceeded limit)
  let sequenceLen := space.fullSequenceLen + atom.drawCount
  return ⟨space.atoms ++ [atom], patternCount, sequenceLen, sequenceLen⟩

/-- `FactorizedQueuePatternSpace::parse`. -/
def FactorizedQueuePatternSpace.parse (characters : List Char) (limit : Nat) :
    Parse FactorizedQueuePatternSpace := do
  let space ← foldAtoms (push limit) characters.length ⟨0, characters⟩ ⟨[], 1, 0, 0⟩
  refuseIf (space.atoms = []) .emptySequence
  return space

/-- The body of the loop of `expand_alternative`; its inner loop stops at more than `limit`. -/
def extendSequences (limit start : Nat) (text : AtomText) (sequences : List (List PieceKind)) :
    Parse (List (List PieceKind)) := do
  let atom ← expandedAtom start text
  let next := sequences.flatMap fun start => atom.map (start ++ ·)
  refuseIf (next.length > limit) (.patternLimitExceeded limit)
  return next

def expandAlternative (characters : List Char) (limit : Nat) : Parse (List (List PieceKind)) :=
  foldAtoms (extendSequences limit) characters.length ⟨0, characters⟩ [[]]

/-- The bracket check of `split_alternatives`; `index` counts bytes. -/
def bracketDepth : Nat → Nat → List Char → Parse Nat
  | _, depth, [] => .ok depth
  | index, depth, value :: rest =>
    if value = '[' then bracketDepth (index + 1) (depth + 1) rest
    else if value = ']' then
      if depth = 0 then .error (.unexpectedCharacter index ']')
      else bracketDepth (index + 1) (depth - 1) rest
    else bracketDepth (index + value.utf8Size) depth rest

def splitAlternatives (source : List Char) : Parse (List (List Char)) := do
  refuseIf ((← bracketDepth 0 0 source) ≠ 0) .unclosedGroup
  let alternatives := source.splitOn ';'
  refuseIf ([] ∈ alternatives) .emptyAlternative
  return alternatives

/-! ## Expressions -/

/-- `QueuePatternExpression` of the source, whose storage has that name here. -/
structure ParsedExpression where
  source : List Char
  sequences : QueuePatternExpression
  sequenceLen : Nat
  deriving DecidableEq

/-- What every parser of a source starts with. -/
def normalize (source : String) : List Char :=
  (source.toList.filter fun c => !isWhitespace c && c ≠ ',').flatMap toUppercase

def factorizedPatternThreshold : Nat := 4096

/-- The sequences of one alternative, small products written out. -/
def factorizedSequences (alternative : List Char) (limit : Nat) : Parse (QueuePatternExpression × Nat) := do
  let space ← FactorizedQueuePatternSpace.parse alternative limit
  return (if space.patternCount > factorizedPatternThreshold then .factorized space
    else .explicit ((List.range space.patternCount).map fun index => (space.sequence index).getD []),
    space.visibleSequenceLen)

/-- One alternative's sequences, put into the ordered set that collects them. -/
def collectSequences (limit : Nat) (unique : List (List PieceKind)) (alternative : List Char) :
    Parse (List (List PieceKind)) := do
  let unique := sortDedup (unique ++ (← expandAlternative alternative limit))
  refuseIf (unique.length > limit) (.patternLimitExceeded limit)
  return unique

def expandedSequences (alternatives : List (List Char)) (limit : Nat) :
    Parse (QueuePatternExpression × Nat) := do
  let unique ← alternatives.foldlM (collectSequences limit) []
  refuseIf (unique = []) .empty
  return (.explicit unique, unique.head?.elim 0 List.length)

def hasMixedSequenceLengths (expected : Nat) : QueuePatternExpression → Bool
  | .explicit sequences => sequences.any (·.length ≠ expected)
  | .factorized space => space.visibleSequenceLen ≠ expected

/-- `QueuePatternExpression::parse`. -/
def parse (source : String) (maxPatterns : Nat) : Parse ParsedExpression := do
  let normalized := normalize source
  refuseIf (normalized = []) .empty
  let limit := if maxPatterns = 0 then usizeMax else maxPatterns
  let alternatives ← splitAlternatives normalized
  let parsed := if alternatives.length = 1 then factorizedSequences (alternatives.headD []) limit
    else expandedSequences alternatives limit
  let (sequences, sequenceLen) ← parsed
  refuseIf (sequenceLen = 0) .emptySequence
  refuseIf (hasMixedSequenceLengths sequenceLen sequences) .mixedSequenceLengths
  return ⟨normalized, sequences, sequenceLen⟩

/-! ## Standard bags -/

/-- The loop over the bags of a source, each a `P` and a count. -/
def bagCounts : Nat → List Char → Option (List Nat)
  | fuel + 1, value :: rest =>
    let digits := rest.takeWhile Char.isDigit
    let count := digits.foldl (fun n digit => n * 10 + (digit.toNat - 48)) 0
    -- a count too large for its type is out of range as well
    if value ≠ 'P' ∨ digits = [] ∨ count = 0 ∨ 7 < count then none
    else (bagCounts fuel (rest.dropWhile Char.isDigit)).map (count :: ·)
  | _, _ => some []

def standard7BagWithOptionalLeadingPiece (source : String) :
    Option (Option PieceKind × Nat) := do
  let normalized := normalize source
  let first ← normalized.head?
  let leading := if first = 'P' then some none else (fromAscii first).map some
  let leadingPiece ← leading
  let bags := if first = 'P' then normalized else normalized.tail
  let counts ← bagCounts bags.length bags
  if counts = [] ∨ ∃ count ∈ counts.dropLast, count ≠ 7 then none
  else some (leadingPiece, counts.sum)

def standard7BagDrawCount (source : String) : Option Nat := do
  let (leadingPiece, count) ← standard7BagWithOptionalLeadingPiece source
  if leadingPiece = none then some count else none

namespace ParsedExpression

/-- `prefix(sequence_len)`. -/
def takePrefix (self : ParsedExpression) (sequenceLen : Nat) : ParsedExpression :=
  let sequenceLen := min sequenceLen self.sequenceLen
  { self with
    sequences := match self.sequences with
      | .explicit sequences => .explicit (sequences.map (·.take sequenceLen))
      | .factorized space => .factorized
        { space with visibleSequenceLen := min sequenceLen space.fullSequenceLen }
    sequenceLen }

/-- The draws of one atom: no piece twice, all of them choices. -/
def matchesDraws (choices : List PieceKind) : UsedMask → List PieceKind → Bool
  | _, [] => true
  | seen, piece :: draws =>
    if seen &&& pieceBit piece ≠ 0 ∨ piece ∉ choices then false
    else matchesDraws choices (seen ||| pieceBit piece) draws

/-- The loop of `matches_sequence` over the atoms. -/
def matchesAtoms : List FactorizedPatternAtom → List PieceKind → Bool
  | [], sequence => sequence.isEmpty
  | atom :: atoms, sequence => atom.drawCount ≤ sequence.length &&
    matchesDraws atom.choices 0 (sequence.take atom.drawCount) &&
    matchesAtoms atoms (sequence.drop atom.drawCount)

def matchesSequence (self : ParsedExpression) (sequence : List PieceKind) : Bool :=
  sequence.length = self.sequenceLen &&
    match self.sequences with
    | .explicit sequences => sequences.any (· = sequence)
    | .factorized space => matchesAtoms space.atoms sequence

end ParsedExpression

end Clearra.Supply
