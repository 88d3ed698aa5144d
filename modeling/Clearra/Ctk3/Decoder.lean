import Clearra.Ctk3.Predict
import Clearra.Ctk3.Transport
import Clearra.Lib.Utf8

/-!
# Decoding

Four revisions of the body: the legacy one, the compact one, the temporal one, whose pages refer to
earlier pages, and the temporal one with a field that all pages share. Every number in it comes from
the text that was given, so it is checked before it is used as a count, a distance or an index; the
build says what the arithmetic in between does.
-/

namespace Clearra.Ctk3

/-- `if present { Some(..) } else { None }`. -/
def readIf {α : Type} (present : Bool) (p : Read α) : Read (Option α) :=
  if present then do
    let a ← p
    pure (some a)
  else pure none

/-! ## Operations and comments -/

def readCoordinate : Read Int := do
  let value ← readSignedVarInt
  failIf (value.natAbs > maxOperationCoordinate) "operation coordinate is invalid"
  pure value

def normalizeDecodedOperation (operation : Ctk3Operation) : Read Ctk3Operation := do
  failIf (!coordinatesInRange operation) "operation is invalid"
  let canonical ← orFail "operation is invalid" (canonicalizeOperation operation)
  failIf (!coordinatesInRange canonical) "operation is invalid"
  pure canonical

def readOperationBody : Read Ctk3Operation := do
  let index ← readBits 3
  let piece ← orFail "operation piece is invalid" (Ctk3Piece.fromWireIndex index)
  let rotations := operationRotations piece
  let index ← readBits (bitsForChoices rotations.length)
  let rotation ← orFail "operation rotation is invalid" rotations[index]?
  let x ← readCoordinate
  let y ← readCoordinate
  normalizeDecodedOperation ⟨piece, rotation, x, y⟩

/-- The operation of a legacy page: any of the four rotations. -/
def readLegacyOperation : Read Ctk3Operation := do
  let index ← readBits 3
  let piece ← orFail "operation piece is invalid" (Ctk3Piece.fromWireIndex index)
  let turns ← readBits 2
  let rotation ← orFail "operation rotation is invalid" (Ctk3Rotation.fromQuarterTurns turns)
  let x ← readCoordinate
  let y ← readCoordinate
  normalizeDecodedOperation ⟨piece, rotation, x, y⟩

/-- `String::from_utf8`. -/
def commentOfBytes (bytes : List Byte) : Read String :=
  match Lib.fromUtf8 (bytes.map UInt8.ofBitVec) with
  | some comment => pure comment
  | none => refuse .invalidUtf8

def readCommentLiteral : Read String := do
  let length ← readVarUint
  failIf (length > maxCommentBytes) "page comment is too long"
  let bytes ← readBytes length
  commentOfBytes bytes

/-! ## Linear pages -/

def readCompactFlags (previous : Option NormalizedPage) : Read Ctk3PageFlags := do
  let mode ← readBits 2
  match mode with
  | 0 => pure .standard
  | 1 => orFail "page flag reference is invalid" (previous.map NormalizedPage.flags)
  | 2 => do
    let bits ← readBits 5
    pure (.fromBits bits)
  | _ => fail "page flag mode is invalid"

/-- A bit says whether the height is the previous page's. -/
def readCompactHeight : Option NormalizedPage → Read Nat
  | some previous => do
    let same ← readBit
    if same then pure previous.height else readVarUint
  | none => readVarUint

section

variable (b : Build)

def readCompactPage (width : Nat) (previous : Option NormalizedPage) : Read NormalizedPage := do
  let flags ← readCompactFlags previous
  let hasComment ← readBit
  let hasOperation ← readBit
  let hasGarbage ← readBit
  let height ← readCompactHeight previous
  failIf (height > maxHeight) "page height is invalid"
  let cellCount ← usizeChecked b (width * height)
  let codes ← readCellEncoding b cellCount (previous.map NormalizedPage.codes) 3
  let garbageCodes ← readIf hasGarbage (readCellEncoding b width none 3)
  let comment ← readIf hasComment readCommentLiteral
  let operation ← readIf hasOperation readOperationBody
  pure ⟨height, codes, comment.getD "", operation, flags, garbageCodes⟩

def readLegacyPage (width : Nat) (previous : Option NormalizedPage) : Read NormalizedPage := do
  let metadata ← readBits 8
  let height ← readVarUint
  failIf (height > maxHeight) "page height is invalid"
  let count ← usizeChecked b (width * height)
  let codes ← readCellEncoding b count (previous.map NormalizedPage.codes) 2
  let garbageCodes ← readIf (metadata.testBit 7) (readCellEncoding b width none 2)
  let comment ← readIf (metadata.testBit 5) readCommentLiteral
  let operation ← readIf (metadata.testBit 6) readLegacyOperation
  pure ⟨height, codes, comment.getD "", operation, .fromBits (metadata &&& 0x1f), garbageCodes⟩

def readLinearPage (width revision : Nat) (previous : Option NormalizedPage) :
    Read NormalizedPage :=
  if revision = legacySchemaRevision then readLegacyPage b width previous
  else readCompactPage b width previous

/-- The loop of `read_linear_pages`. -/
def readLinearLoop (width revision : Nat) : Nat → List NormalizedPage → Read (List NormalizedPage)
  | 0, pages => pure pages
  | count + 1, pages => do
    let page ← readLinearPage b width revision pages.getLast?
    readLinearLoop width revision count (pages ++ [page])

def readLinearPages (width pageCount revision : Nat) : Read (List NormalizedPage) :=
  readLinearLoop b width revision pageCount []

/-! ## Temporal pages -/

/-- `history.len().checked_sub(distance)`, and then the page there. -/
def readReference (history : List NormalizedPage) (reason : String) : Read NormalizedPage := do
  let distance ← readVarUintPlus b 1
  failIf (distance > history.length) reason
  indexed history (history.length - distance)

def readTemporalFlags (previous : Option Ctk3PageFlags) : Read Ctk3PageFlags := do
  let given ← readBit
  if !given then pure .standard
  else do
    let literal ← readBit
    if !literal then orFail "page flag reference is invalid" previous
    else do
      let bits ← readBits 5
      pure (.fromBits bits)

/-- A bit says whether the height is not the previous page's. -/
def readTemporalHeight : Option NormalizedPage → Read Nat
  | some previous => do
    let given ← readBit
    if given then readVarUint else pure previous.height
  | none => readVarUint

def readTemporalGarbage (width : Nat) (previous : Option (List Nat)) :
    Read (Option (List Nat)) := do
  let given ← readBit
  if !given then pure none
  else do
    let literal ← readBit
    if !literal then do
      let codes ← orFail "garbage reference is invalid" previous
      pure (some codes)
    else do
      let codes ← readCellEncoding b width previous 4
      pure (some codes)

def readTemporalComment (history : List NormalizedPage) : Read String := do
  let given ← readBit
  if !given then pure ""
  else do
    let other ← readBit
    if !other then do
      let page ← orFail "comment reference is invalid" history.getLast?
      pure page.comment
    else do
      let literal ← readBit
      if !literal then do
        let page ← readReference b history "comment reference is invalid"
        failIf (page.comment = "") "comment reference is empty"
        pure page.comment
      else readCommentLiteral

/-- The operation moved by what is read. The sums fit an `i64`: a coordinate has 30 bits, a
    difference 32. -/
def readMovedOperation (previous : Ctk3Operation) : Read Ctk3Operation := do
  let dx ← readSignedVarInt
  let dy ← readSignedVarInt
  failIf (!fitsI32 (previous.x + dx) || !fitsI32 (previous.y + dy)) "operation is invalid"
  normalizeDecodedOperation { previous with x := previous.x + dx, y := previous.y + dy }

def readTemporalOperation (previous : Option Ctk3Operation) : Read (Option Ctk3Operation) := do
  let given ← readBit
  if !given then pure none
  else do
    let other ← readBit
    if !other then do
      let operation ← orFail "operation reference is invalid" previous
      pure (some operation)
    else do
      let literal ← readBit
      if !literal then do
        let previous ← orFail "operation delta has no reference" previous
        let operation ← readMovedOperation previous
        pure (some operation)
      else do
        let operation ← readOperationBody
        pure (some operation)

/-- The predictors of modes 1 to 7, from the previous page. -/
def previousPredictor (mode width height : Nat) (previous : NormalizedPage) : Read (List Nat) :=
  let count := width * height
  match mode with
  | 1 => pure (fitCodes previous.codes count)
  | 2 => pure (grayscaleCodes previous.codes count)
  | 3 => Decoder.mirrorCodes previous.codes previous.height width height
  | 4 => Decoder.predictLockedCodes b previous width height false false
  | 5 => Decoder.predictLockedCodes b previous width height false true
  | 6 => Decoder.predictLockedCodes b previous width height true false
  | _ => Decoder.predictLockedCodes b previous width height true true

def readPredictor (mode width height : Nat) (history : List NormalizedPage)
    (shared : Option (List Nat)) : Read (Option (List Nat)) :=
  let count := width * height
  if mode = 0 then pure none
  else if mode ≤ 7 then do
    let previous ← orFail "temporal field has no previous page" history.getLast?
    let codes ← previousPredictor b mode width height previous
    pure (some codes)
  else if mode = 8 then do
    let reference ← readReference b history "temporal field reference is invalid"
    pure (some (fitCodes reference.codes count))
  else if mode = 9 then do
    let reference ← readReference b history "temporal field reference is invalid"
    let codes ← Decoder.mirrorCodes reference.codes reference.height width height
    pure (some codes)
  else if mode = 10 then do
    let shared ← orFail "shared field reference is invalid" shared
    pure (some (fitCodes shared count))
  else fail "temporal field mode is invalid"

def readTemporalField (width height : Nat) (history : List NormalizedPage)
    (shared : Option (List Nat)) : Read (List Nat) := do
  let mode ← readBits 4
  let targetLen ← usizeChecked b (width * height)
  let predictor ← readPredictor b mode width height history shared
  readCellEncoding b targetLen predictor 4

def readTemporalPage (width : Nat) (history : List NormalizedPage) (shared : Option (List Nat)) :
    Read NormalizedPage := do
  let previous := history.getLast?
  let flags ← readTemporalFlags (previous.map NormalizedPage.flags)
  let height ← readTemporalHeight previous
  failIf (height > maxHeight) "page height is invalid"
  let codes ← readTemporalField b width height history shared
  let garbageCodes ← readTemporalGarbage b width (previous.bind NormalizedPage.garbageCodes)
  let comment ← readTemporalComment b history
  let operation ← readTemporalOperation (previous.bind NormalizedPage.operation)
  pure ⟨height, codes, comment, operation, flags, garbageCodes⟩

/-- One round of the loop of `read_temporal_pages`: the pages it pushes. -/
def readTemporalStep (width pageCount : Nat) (shared : Option (List Nat))
    (pages : List NormalizedPage) : Read (List NormalizedPage) := do
  let mode ← readBits 2
  match mode with
  | 0 => do
    let page ← readTemporalPage b width pages shared
    pure [page]
  | 1 => do
    let previous ← orFail "repeated page has no reference" pages.getLast?
    pure [previous]
  | 2 => do
    let page ← readReference b pages "page reference is invalid"
    pure [page]
  | _ => do
    let previous ← orFail "repeated page run has no reference" pages.getLast?
    let count ← readVarUintPlus b 2
    let room ← usizeSub b pageCount pages.length
    failIf (count > room) "repeated page run is invalid"
    pure (List.replicate count previous)

/-- The loop of `read_temporal_pages`. Every round reads a bit, so that after as many rounds as
    there were bits the next read finds the payload at its end. -/
def readTemporalLoop (width pageCount : Nat) (shared : Option (List Nat)) :
    Nat → List NormalizedPage → Read (List NormalizedPage)
  | rounds, pages =>
    if pages.length < pageCount then
      match rounds with
      | 0 => fail "payload ended unexpectedly"
      | rounds + 1 => do
        let pushed ← readTemporalStep b width pageCount shared pages
        readTemporalLoop width pageCount shared rounds (pages ++ pushed)
    else pure pages

def readTemporalPages (width pageCount : Nat) (shared : Option (List Nat)) :
    Read (List NormalizedPage) := do
  let reader ← get
  readTemporalLoop b width pageCount shared reader.bitsLeft []

/-! ## Documents -/

/-- The field that the pages of the fourth revision share. -/
def readSharedField (width : Nat) : Read (List Nat) := do
  let height ← readVarUint
  failIf (height = 0 ∨ height > maxHeight) "shared field height is invalid"
  let count ← usizeChecked b (width * height)
  readCellEncoding b count none 4

def readPages (revision width pageCount : Nat) : Read (List NormalizedPage) :=
  if revision = temporalSchemaRevision then readTemporalPages b width pageCount none
  else if revision = sharedFieldSchemaRevision then do
    let shared ← readSharedField b width
    readTemporalPages b width pageCount (some shared)
  else readLinearPages b width pageCount revision

/-- The width and the pages. -/
def readBody : Read (Nat × List NormalizedPage) := do
  let first ← readBits 8
  failIf (first ≠ magic) "payload header is invalid"
  let revision ← readBits 3
  failIf (revision ∉ [legacySchemaRevision, compactSchemaRevision, temporalSchemaRevision,
    sharedFieldSchemaRevision]) "schema revision is unsupported"
  let width ← readBits 5
  let width := width + 1
  if width = 0 ∨ width > maxWidth then refuse (.invalidWidth width)
  else do
    let pageCount ← readVarUint
    if pageCount = 0 ∨ pageCount > maxSegmentPages then refuse (.invalidPageCount pageCount)
    else do
      let extended ← readBit
      failIf extended "extension block is unsupported"
      let pages ← readPages b revision width pageCount
      pure (width, pages)

def readDocument : Read (Nat × List NormalizedPage) := do
  let document ← readBody b
  assertZeroPadding
  pure document

/-- The two bytes of the checksum, after the body. -/
def splitChecksum (payload : List Byte) : Except Stop (List Byte × BitVec 16) :=
  match payload.drop (payload.length - 2) with
  | [high, low] => .ok (payload.take (payload.length - 2), high ++ low)
  | _ => .error .outOfBounds

def normalizedToDocument (width : Nat) (pages : List NormalizedPage) : Except Stop Ctk3Document :=
  match pages.mapM normalizedToPage with
  | .ok pages => .ok ⟨width, pages⟩
  | .error e => .error (.error e)

def decodeSinglePayload (transport : Transport) (encoded : List Char) :
    Except Stop Ctk3Document := do
  let payload ← decodePayload transport encoded
  rejectIf (payload.length < 4 ∨ payload.length > maxPayloadBytes) "payload length is invalid"
  let (body, expected) ← splitChecksum payload
  rejectIf (crc16 body ≠ expected) "checksum does not match"
  let ((width, pages), _) ← readDocument b ⟨body, 0⟩
  normalizedToDocument width pages

/-- `CTK3_MAX_BUNDLE_PAGES - pages.len()`. -/
def bundleRoom (pages : List Ctk3Page) : Except Stop Nat :=
  if pages.length ≤ maxBundlePages then .ok (maxBundlePages - pages.length)
  else if b.overflowChecks then .error .overflow
  else .ok ((maxBundlePages + 2 ^ b.pointerBits - pages.length) % 2 ^ b.pointerBits)

/-- The segments of a bundle, after those that gave `width` and `pages`. -/
def decodeSegments : List (List Char × Nat) → Option Nat → List Ctk3Page →
    Except Stop (Option Nat × List Ctk3Page)
  | [], width, pages => .ok (width, pages)
  | (payload, index) :: payloads, width, pages => do
    let document ← decodeSinglePayload b .ctk64 payload
    Lib.refuseIf (width.any (document.width ≠ ·)) (.error (.bundleWidthMismatch index))
    let room ← bundleRoom b pages
    Lib.refuseIf (document.pages.length > room) (.error .bundlePageLimitExceeded)
    decodeSegments payloads (some document.width) (pages ++ document.pages)

def decodeBundlePayloads (payloads : List (List Char)) : Except Stop Ctk3Document := do
  Lib.refuseIf (payloads.length > maxBundlePages) (.error .bundlePageLimitExceeded)
  let (width, pages) ← decodeSegments b payloads.zipIdx none []
  let width ← orReject "bundle is empty" width
  pure ⟨width, pages⟩

/-- One segment, wherever it was found. -/
def decodeFound (found : Transport × List Char) : Except Stop Ctk3Document :=
  decodeSinglePayload b found.1 found.2

/-- A bundle if one was found, and else what `single` finds. -/
def decodeEither (bundle : Option (List (List Char)))
    (single : Except Stop (Transport × List Char)) : Except Stop Ctk3Document :=
  match bundle with
  | some payloads => decodeBundlePayloads b payloads
  | none => single >>= decodeFound b

def decodeCtk3Exact (input : String) : Except Stop Ctk3Document := do
  let bundle ← extractExactBundle input.toList
  decodeEither b bundle (extractExactPayload input.toList)

def decodeCtk3 (input : String) : Except Stop Ctk3Document := do
  let bundle ← extractCompatibleBundle input.toList
  decodeEither b bundle (extractCompatiblePayload input.toList)

/-- The second bundle is not looked for if there is a first. -/
def containsBundle (input : List Char) : Except Stop Bool := do
  let exact ← extractExactBundle input
  if exact.isSome then pure true
  else do
    let compatible ← extractCompatibleBundle input
    pure compatible.isSome

def decodeCtk3Segment (input : String) : Except Stop Ctk3Document := do
  let bundle ← containsBundle input.toList
  rejectIf bundle "a segment cannot contain a bundle"
  let found ← extractExactPayload input.toList
  decodeFound b found

end

end Clearra.Ctk3
