import Clearra.Lib.Csr
import Mathlib.Data.List.Sort

/-!
# CTK3 documents

The typed document, and the normal form the codec writes: colours as codes, trailing empty rows
dropped, the operation put into the one spelling its cells have, an empty garbage row dropped, the
quiz flag set where the comment asks for it. Normalising is where a document is refused; what it
accepts the encoder can write.
-/

namespace Clearra.Ctk3

def maxSegmentPages : Nat := 4096
def maxBundlePages : Nat := 1048576
def magic : Nat := 0xc3
def legacySchemaRevision : Nat := 0
def compactSchemaRevision : Nat := 1
def temporalSchemaRevision : Nat := 2
def sharedFieldSchemaRevision : Nat := 3
def maxWidth : Nat := 31
def maxHeight : Nat := 31
def maxCommentBytes : Nat := 2 ^ 20
def maxPayloadBytes : Nat := 16 * 2 ^ 20
def maxOperationCoordinate : Nat := 0x3fffffff

inductive Ctk3CodecError where
  | invalidWidth (width : Nat)
  | invalidPageCount (count : Nat)
  | invalidHeight (page height : Nat)
  | invalidCellCount (page expected actual : Nat)
  | commentTooLong (page bytes : Nat)
  | invalidGarbageWidth (page expected actual : Nat)
  | invalidOperationCoordinate (page : Nat)
  | invalidBundleSegmentCount (count : Nat)
  | bundleSegmentCountMismatch (expected actual : Nat)
  | invalidBundleSegment (index : Nat)
  | bundleWidthMismatch (index : Nat)
  | bundlePageLimitExceeded
  | payloadTooLarge (bytes : Nat)
  | invalidPayload (reason : String)
  | invalidUtf8
  | integerOverflow
  deriving DecidableEq

/-! ## Pieces, colours, rotations -/

inductive Ctk3Piece where
  | I | O | T | S | Z | J | L
  deriving DecidableEq

def Ctk3Piece.wireIndex : Ctk3Piece → Nat
  | I => 0
  | O => 1
  | T => 2
  | S => 3
  | Z => 4
  | J => 5
  | L => 6

def Ctk3Piece.fromWireIndex : Nat → Option Ctk3Piece
  | 0 => some I
  | 1 => some O
  | 2 => some T
  | 3 => some S
  | 4 => some Z
  | 5 => some J
  | 6 => some L
  | _ => none

inductive Ctk3Color where
  | empty
  | gray
  | piece (p : Ctk3Piece)
  deriving DecidableEq

def Ctk3Color.code : Ctk3Color → Nat
  | empty => 0
  | gray => 1
  | piece p => p.wireIndex + 2

def Ctk3Color.fromCode : Nat → Option Ctk3Color
  | 0 => some empty
  | 1 => some gray
  | 2 => some (piece .I)
  | 3 => some (piece .O)
  | 4 => some (piece .T)
  | 5 => some (piece .S)
  | 6 => some (piece .Z)
  | 7 => some (piece .J)
  | 8 => some (piece .L)
  | _ => none

inductive Ctk3Rotation where
  | spawn | right | reverse | left
  deriving DecidableEq

def Ctk3Rotation.fromQuarterTurns : Nat → Option Ctk3Rotation
  | 0 => some spawn
  | 1 => some right
  | 2 => some reverse
  | 3 => some left
  | _ => none

structure Ctk3Operation where
  piece : Ctk3Piece
  rotation : Ctk3Rotation
  x : Int
  y : Int
  deriving DecidableEq

structure Ctk3PageFlags where
  lock : Bool
  mirror : Bool
  colorize : Bool
  rise : Bool
  quiz : Bool
  deriving DecidableEq

namespace Ctk3PageFlags

/-- `Ctk3PageFlags::default()`. -/
def standard : Ctk3PageFlags := ⟨true, false, true, false, false⟩

def bits (flags : Ctk3PageFlags) : Nat :=
  flags.lock.toNat ||| (flags.mirror.toNat <<< 1) ||| (flags.colorize.toNat <<< 2) |||
    (flags.rise.toNat <<< 3) ||| (flags.quiz.toNat <<< 4)

def fromBits (bits : Nat) : Ctk3PageFlags :=
  ⟨bits.testBit 0, bits.testBit 1, bits.testBit 2, bits.testBit 3, bits.testBit 4⟩

end Ctk3PageFlags

/-! ## Geometry of an operation -/

/-- Rotations that give a piece different cells. -/
def operationRotations : Ctk3Piece → List Ctk3Rotation
  | .O => [.spawn]
  | .I | .S | .Z => [.spawn, .right]
  | .T | .J | .L => [.spawn, .right, .reverse, .left]

def spawnOffsets : Ctk3Piece → List (Int × Int)
  | .I => [(-1, 0), (0, 0), (1, 0), (2, 0)]
  | .O => [(0, 0), (1, 0), (0, 1), (1, 1)]
  | .T => [(-1, 0), (0, 0), (1, 0), (0, 1)]
  | .S => [(-1, 0), (0, 0), (0, 1), (1, 1)]
  | .Z => [(-1, 1), (0, 1), (0, 0), (1, 0)]
  | .J => [(-1, 1), (-1, 0), (0, 0), (1, 0)]
  | .L => [(1, 1), (-1, 0), (0, 0), (1, 0)]

def turns : Ctk3Rotation → Nat
  | .spawn => 0
  | .right => 1
  | .reverse => 2
  | .left => 3

def operationOffsets (piece : Ctk3Piece) (rotation : Ctk3Rotation) : List (Int × Int) :=
  if piece = .O then spawnOffsets piece
  else (turns rotation).repeat (List.map fun (x, y) => (y, -x)) (spawnOffsets piece)

def operationCells (operation : Ctk3Operation) : List (Int × Int) :=
  (operationOffsets operation.piece operation.rotation).map fun (x, y) =>
    (operation.x + x, operation.y + y)

/-- The key `(y, x)` the cells are sorted by. -/
def cellLe (a b : Int × Int) : Bool := decide (a.2 < b.2 ∨ a.2 = b.2 ∧ a.1 ≤ b.1)

def sortCells (cells : List (Int × Int)) : List (Int × Int) := cells.insertionSort (cellLe · ·)

/-- `i32::try_from`. -/
def fitsI32 (v : Int) : Bool := decide (-2 ^ 31 ≤ v ∧ v < 2 ^ 31)

/-- One try of the search: the operation that puts `offset` on `cell`, if it covers the target. -/
def operationCandidate (piece : Ctk3Piece) (target : List (Int × Int)) (rotation : Ctk3Rotation)
    (cell offset : Int × Int) : Option Ctk3Operation :=
  let x := cell.1 - offset.1
  let y := cell.2 - offset.2
  if fitsI32 x && fitsI32 y then
    let candidate : Ctk3Operation := ⟨piece, rotation, x, y⟩
    if (operationCells candidate).all (target.contains ·) then some candidate else none
  else none

def operationFromCells (piece : Ctk3Piece) (cells : List (Int × Int)) : Option Ctk3Operation :=
  let target := sortCells cells
  (operationRotations piece).findSome? fun rotation =>
    target.findSome? fun cell =>
      (operationOffsets piece rotation).findSome? fun offset =>
        operationCandidate piece target rotation cell offset

def canonicalizeOperation (operation : Ctk3Operation) : Option Ctk3Operation :=
  operationFromCells operation.piece (sortCells (operationCells operation))

/-! ## Pages -/

structure Ctk3Page where
  height : Nat
  cells : List Ctk3Color
  comment : String
  operation : Option Ctk3Operation
  flags : Ctk3PageFlags
  garbage : Option (List Ctk3Color)
  deriving DecidableEq

structure Ctk3Document where
  width : Nat
  pages : List Ctk3Page
  deriving DecidableEq

structure NormalizedPage where
  height : Nat
  codes : List Nat
  comment : String
  operation : Option Ctk3Operation
  flags : Ctk3PageFlags
  garbageCodes : Option (List Nat)
  deriving DecidableEq

/-- Drops rows from the top while they are empty. -/
def trimHeight (width : Nat) (codes : List Nat) : Nat → Nat
  | 0 => 0
  | height + 1 =>
    if (Lib.slice codes (height * width) ((height + 1) * width)).all (· = 0) then
      trimHeight width codes height
    else height + 1

/-- Whether both coordinates are ones the format writes. -/
def coordinatesInRange (operation : Ctk3Operation) : Bool :=
  decide (operation.x.natAbs ≤ maxOperationCoordinate ∧
    operation.y.natAbs ≤ maxOperationCoordinate)

def normalizeOperation (index : Nat) (operation : Ctk3Operation) :
    Except Ctk3CodecError Ctk3Operation :=
  if coordinatesInRange operation then
    match canonicalizeOperation operation with
    | none => .error (.invalidOperationCoordinate index)
    | some canonical =>
      if coordinatesInRange canonical then .ok canonical
      else .error (.invalidOperationCoordinate index)
  else .error (.invalidOperationCoordinate index)

def normalizeGarbage (width index : Nat) (garbage : List Ctk3Color) :
    Except Ctk3CodecError (Option (List Nat)) :=
  if garbage.length ≠ width then .error (.invalidGarbageWidth index width garbage.length)
  else
    let codes := garbage.map Ctk3Color.code
    .ok (if codes.any (· ≠ 0) then some codes else none)

/-- `comment.starts_with("#Q=")`. -/
def asksForQuiz (comment : String) : Bool := ['#', 'Q', '='].isPrefixOf comment.toList

def normalizePage (width index : Nat) (page : Ctk3Page) : Except Ctk3CodecError NormalizedPage := do
  if page.height > maxHeight then throw (.invalidHeight index page.height)
  let expected := page.height * width
  if page.cells.length ≠ expected then
    throw (.invalidCellCount index expected page.cells.length)
  if page.comment.utf8ByteSize > maxCommentBytes then
    throw (.commentTooLong index page.comment.utf8ByteSize)
  let codes := page.cells.map Ctk3Color.code
  let height := trimHeight width codes page.height
  let operation ← page.operation.mapM (normalizeOperation index)
  let garbageCodes ← page.garbage.mapM (normalizeGarbage width index)
  pure {
    height
    codes := codes.take (height * width)
    comment := page.comment
    operation
    flags := if asksForQuiz page.comment then { page.flags with quiz := true } else page.flags
    garbageCodes := garbageCodes.join }

def normalizeDocument (document : Ctk3Document) : Except Ctk3CodecError (List NormalizedPage) :=
  if document.width = 0 ∨ document.width > maxWidth then .error (.invalidWidth document.width)
  else if document.pages = [] ∨ document.pages.length > maxSegmentPages then
    .error (.invalidPageCount document.pages.length)
  else document.pages.zipIdx.mapM fun (page, index) => normalizePage document.width index page

def colorOf (reason : String) (code : Nat) : Except Ctk3CodecError Ctk3Color :=
  match Ctk3Color.fromCode code with
  | some color => .ok color
  | none => .error (.invalidPayload reason)

def normalizedToPage (page : NormalizedPage) : Except Ctk3CodecError Ctk3Page := do
  let cells ← page.codes.mapM (colorOf "field color is invalid")
  let garbage ← page.garbageCodes.mapM fun codes => codes.mapM (colorOf "garbage color is invalid")
  pure ⟨page.height, cells, page.comment, page.operation, page.flags, garbage⟩

/-- What a document is after a trip through the codec. -/
def normalForm (document : Ctk3Document) : Except Ctk3CodecError Ctk3Document := do
  let pages ← normalizeDocument document
  let pages ← pages.mapM normalizedToPage
  pure ⟨document.width, pages⟩

end Clearra.Ctk3
