import Clearra.Ctk3.Decoder
import Clearra.Ctk3.Encoder

/-!
# Bundles

Segments of one width behind one prefix, with dots between their payloads. There are three writers:
one returns the text, one validates all segments and then writes them, one encodes a document at a
time and writes as it goes. A single segment is written as such, without the prefix of a bundle.

What is written goes to a destination that takes everything; it keeps what it has when the writer
fails.
-/

namespace Clearra.Ctk3

open Lib

/-- `checked_add(..).ok_or(IntegerOverflow)?`. -/
def checkedAdd (b : Build) (m n : Nat) : Except Stop Nat := do
  refuseIf (m + n ≥ 2 ^ b.pointerBits) (.error .integerOverflow)
  pure (m + n)

/-- `map_err(|_| InvalidBundleSegment { index })`; a panic stays one. -/
def segmentError (index : Nat) : Stop → Stop
  | .error _ => .error (.invalidBundleSegment index)
  | stop => stop

section

variable (b : Build)

/-- The loop over the segments, after those that gave `width` and `pageCount`. -/
def validateSegments : List (String × Nat) → Option Nat → Nat → Except Stop (List (List Char))
  | [], _, _ => pure []
  | (segment, index) :: segments, width, pageCount => do
    let (transport, payload) ← (extractExactPayload segment.toList).mapError (segmentError index)
    refuseIf (transport ≠ .ctk64) (.error (.invalidBundleSegment index))
    let document ← (decodeCtk3Segment b segment).mapError (segmentError index)
    refuseIf (width.any (document.width ≠ ·)) (.error (.bundleWidthMismatch index))
    let pageCount ← checkedAdd b pageCount document.pages.length
    refuseIf (pageCount > maxBundlePages) (.error .bundlePageLimitExceeded)
    let payloads ← validateSegments segments (some document.width) pageCount
    pure (payload :: payloads)

/-- The payloads of valid segments; both `encode_ctk3_bundle` and `encode_ctk3_bundle_into` start
    with this. -/
def bundlePayloads (segments : List String) : Except Stop (List (List Char)) := do
  refuseIf (segments = [] ∨ segments.length > maxBundlePages)
    (.error (.invalidBundleSegmentCount segments.length))
  validateSegments b segments.zipIdx none 0

def encodeCtk3Bundle (segments : List String) : Except Stop String := do
  let payloads ← bundlePayloads b segments
  match payloads with
  | [payload] => pure (String.ofList (ctk3Prefix ++ payload))
  | payloads => pure (String.ofList (ctk3BundlePrefix ++ ['.'].intercalate payloads))

/-! ## Writing to a destination -/

/-- A writer, by what it has written so far. -/
abbrev WriteInto (α : Type) := EStateM Stop (List Char) α

def writeAll (text : List Char) : WriteInto Unit := modify (· ++ text)

/-- `?`. -/
def orStop {α : Type} : Except Stop α → WriteInto α
  | .ok a => pure a
  | .error e => throw e

/-- The payloads from the `index`th on; the first one has no dot in front. -/
def writePayloads : List (List Char) → Nat → WriteInto Unit
  | [], _ => pure ()
  | payload :: payloads, index => do
    if index ≠ 0 then writeAll ['.']
    writeAll payload
    writePayloads payloads (index + 1)

def encodeCtk3BundleInto (segments : List String) : WriteInto Unit := do
  let payloads ← orStop (bundlePayloads b segments)
  match payloads with
  | [payload] =>
    writeAll ctk3Prefix
    writeAll payload
  | payloads =>
    writeAll ctk3BundlePrefix
    writePayloads payloads 0

def writeSegmentPayload (segment : String) : WriteInto Unit :=
  match ctk3Prefix.isPrefixOf? segment.toList with
  | some payload => writeAll payload
  | none => throw (.error (.invalidPayload "native segment prefix is invalid"))

/-- The loop over the documents behind the first. -/
def writeSegments (expectedWidth : Nat) : List Ctk3Document → Nat → Nat → WriteInto Unit
  | [], _, _ => pure ()
  | document :: documents, index, pageCount => do
    orStop (refuseIf (document.width ≠ expectedWidth) (.error (.bundleWidthMismatch index)))
    let pageCount ← orStop (checkedAdd b pageCount document.pages.length)
    orStop (refuseIf (pageCount > maxBundlePages) (.error .bundlePageLimitExceeded))
    let segment ← orStop ((encodeCtk3Compact document).mapError Stop.error)
    writeAll ['.']
    writeSegmentPayload segment
    writeSegments expectedWidth documents (index + 1) pageCount

def encodeCtk3SegmentedDocumentsIterInto (documents : List Ctk3Document) (segmentCount : Nat) :
    WriteInto Unit := do
  orStop (refuseIf (documents.length ≠ segmentCount)
    (.error (.bundleSegmentCountMismatch segmentCount documents.length)))
  orStop (refuseIf (segmentCount = 0 ∨ segmentCount > maxBundlePages)
    (.error (.invalidBundleSegmentCount segmentCount)))
  match documents with
  | [] => throw (.error (.invalidBundleSegmentCount 0))
  | first :: documents => do
    orStop (refuseIf (first.pages.length > maxBundlePages) (.error .bundlePageLimitExceeded))
    let firstSegment ← orStop ((encodeCtk3Compact first).mapError Stop.error)
    if segmentCount = 1 then writeAll firstSegment.toList
    else do
      writeAll ctk3BundlePrefix
      writeSegmentPayload firstSegment
      writeSegments b first.width documents 1 first.pages.length

def encodeCtk3SegmentedDocumentsInto (documents : List Ctk3Document) : WriteInto Unit :=
  encodeCtk3SegmentedDocumentsIterInto b documents documents.length

end

end Clearra.Ctk3
