import Clearra.Ctk3.Decoder
import Clearra.Ctk3.Encoder

/-!
# Transforms of whole documents

A transform decodes, changes the document and encodes it again. It is meant to be lossless: what it
is about to return is decoded once more and compared. Here are the transform that changes nothing and
the one that swaps left and right.
-/

namespace Clearra.Ctk3

def maxTypedCtk3TextBytes : Nat := maxPayloadBytes * 2

inductive TypedCtk3TransformError where
  | inputTooLarge (length maximum : Nat)
  | outputTooLarge (length maximum : Nat)
  | tooManyPages (length maximum : Nat)
  | emptyDocument
  | operationMirrorUnavailable
  | codec (e : Ctk3CodecError)
  | roundTripMismatch
  deriving DecidableEq

/-- How a transform ends without a result. -/
inductive TransformStop where
  | error (e : TypedCtk3TransformError)
  | panicked (stop : Stop)
  deriving DecidableEq

/-- `map_err(TypedCtk3TransformError::Codec)`; a panic stays one. -/
def codecError : Stop → TransformStop
  | .error e => .error (.codec e)
  | stop => .panicked stop

def checkPageCount (document : Ctk3Document) : Except TransformStop Unit := do
  Lib.refuseIf (document.pages = []) (.error .emptyDocument)
  Lib.refuseIf (document.pages.length > maxSegmentPages)
    (.error (.tooManyPages document.pages.length maxSegmentPages))

section

variable (b : Build)

def decodeBounded (source : String) : Except TransformStop Ctk3Document := do
  Lib.refuseIf (source.utf8ByteSize > maxTypedCtk3TextBytes)
    (.error (.inputTooLarge source.utf8ByteSize maxTypedCtk3TextBytes))
  let document ← (decodeCtk3Exact b source).mapError codecError
  checkPageCount document
  pure document

def encodeChecked (document : Ctk3Document) : Except TransformStop String := do
  checkPageCount document
  let encoded ← (encodeCtk3 document).mapError fun e => .error (.codec e)
  Lib.refuseIf (encoded.utf8ByteSize > maxTypedCtk3TextBytes)
    (.error (.outputTooLarge encoded.utf8ByteSize maxTypedCtk3TextBytes))
  let decoded ← (decodeCtk3Exact b encoded).mapError codecError
  Lib.refuseIf (decoded ≠ document) (.error .roundTripMismatch)
  pure encoded

def roundtrip (source : String) : Except TransformStop String := do
  let document ← decodeBounded b source
  encodeChecked b document

end

/-! ## Left and right -/

namespace Transform

def mirrorPiece : Ctk3Piece → Ctk3Piece
  | .J => .L
  | .L => .J
  | .S => .Z
  | .Z => .S
  | piece => piece

def mirrorColor : Ctk3Color → Ctk3Color
  | .piece p => .piece (mirrorPiece p)
  | color => color

def mirrorRow (row : List Ctk3Color) : List Ctk3Color := row.reverse.map mirrorColor

/-- The chunks of `chunks_exact_mut(width)`, one row at a time; what is left over stays. -/
def mirrorRows (width : Nat) : Nat → List Ctk3Color → List Ctk3Color
  | 0, cells => cells
  | rows + 1, cells => mirrorRow (cells.take width) ++ mirrorRows width rows (cells.drop width)

def mirrorCell (width : Nat) (cell : Int × Int) : Int × Int := (width - 1 - cell.1, cell.2)

def mirrorOperation (width : Nat) (operation : Ctk3Operation) : Except TransformStop Ctk3Operation :=
  match operationFromCells (mirrorPiece operation.piece)
    ((operationCells operation).map (mirrorCell width)) with
  | some mirrored => .ok mirrored
  | none => .error (.error .operationMirrorUnavailable)

def mirrorPage (width : Nat) (page : Ctk3Page) : Except TransformStop Ctk3Page := do
  let operation ← page.operation.mapM (mirrorOperation width)
  pure { page with
    cells := mirrorRows width (page.cells.length / width) page.cells
    garbage := page.garbage.map mirrorRow
    operation }

def mirror (b : Build) (source : String) : Except TransformStop String := do
  let document ← decodeBounded b source
  let pages ← document.pages.mapM (mirrorPage document.width)
  encodeChecked b { document with pages }

end Transform

end Clearra.Ctk3
