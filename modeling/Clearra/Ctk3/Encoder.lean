import Clearra.Ctk3.Predict
import Clearra.Ctk3.Transport
import Clearra.Lib.Utf8

/-!
# Encoding

A document is encoded in every revision that applies, and the shortest payload wins. Inside the
temporal revisions the same happens page by page and field by field: a repeat, a reference to an
earlier page, a prediction from the previous or an earlier field, whichever takes the fewest bits.
The hash maps remember, for every field, page and comment, the last page that had it.
-/

namespace Clearra.Ctk3

def temporalReferenceWindow : Nat := 16

def writeOptional {α : Type} (f : α → Write) : Option α → Write
  | none => pure
  | some a => f a

/-- `if p { return Err(e); }` between two writes. -/
def writeUnless (p : Prop) [Decidable p] (e : Ctk3CodecError) : Write := fun w =>
  if p then .error e else .ok w

/-! ## Operations and comments -/

def writeOperationBody (operation : Ctk3Operation) : Write :=
  let rotations := operationRotations operation.piece
  writeBits operation.piece.wireIndex 3 >=>
    writeUnless (operation.rotation ∉ rotations)
      (.invalidPayload "operation rotation is not canonical") >=>
    writeBits (rotations.idxOf operation.rotation) (bitsForChoices rotations.length) >=>
    writeSignedVarInt operation.x >=> writeSignedVarInt operation.y

def commentBytes (comment : String) : List Byte := (Lib.utf8 comment).map UInt8.toBitVec

def writeCommentLiteral (comment : String) : Write :=
  writeVarUint (commentBytes comment).length >=> writeBytes (commentBytes comment)

/-! ## Compact pages -/

def writeCompactFlags (flags : Ctk3PageFlags) (previous : Option Ctk3PageFlags) : Write :=
  if flags = .standard then writeBits 0 2
  else if previous = some flags then writeBits 1 2
  else writeBits 2 2 >=> writeBits flags.bits 5

def writeCompactHeight (height : Nat) : Option Nat → Write
  | none => writeVarUint height
  | some previous => if height = previous then writeBit true else writeBit false >=> writeVarUint height

def writeCompactPage (page : NormalizedPage) (previous : Option NormalizedPage) : Write :=
  writeCompactFlags page.flags (previous.map NormalizedPage.flags) >=>
    writeBit (page.comment != "") >=> writeBit page.operation.isSome >=>
    writeBit page.garbageCodes.isSome >=>
    writeCompactHeight page.height (previous.map NormalizedPage.height) >=>
    writeBestCellEncoding page.codes (previous.map NormalizedPage.codes) 3 true >=>
    writeOptional (fun garbage => writeBestCellEncoding garbage none 3 true) page.garbageCodes >=>
    (if page.comment = "" then pure else writeCommentLiteral page.comment) >=>
    writeOptional writeOperationBody page.operation

def writeCompactPages : Option NormalizedPage → List NormalizedPage → Write
  | _, [] => pure
  | previous, page :: pages => writeCompactPage page previous >=> writeCompactPages (some page) pages

/-! ## Temporal pages -/

structure SharedFieldPredictor where
  height : Nat
  codes : List Nat

/-- The cells that every page has in common. -/
def commonCodes (pages : List NormalizedPage) (codes : List Nat) : List Nat :=
  pages.foldl (fun common page => common.zipIdx.map fun (code, index) =>
    if code ≠ 0 ∧ code ≠ page.codes.getD index 0 then 0 else code) codes

def buildSharedField (pages : List NormalizedPage) (width : Nat) : Option SharedFieldPredictor :=
  match pages with
  | first :: second :: rest =>
    if first.codes = [] then none
    else
      let common := commonCodes (second :: rest) first.codes
      let height := trimHeight width common ((common.length + width - 1) / width)
      if height = 0 then none else some ⟨height, common.take (height * width)⟩
  | _ => none

/-- The hash maps of `TemporalContext`: what was inserted last is found first. -/
structure TemporalContext where
  latestField : List ((Nat × List Nat) × Nat)
  latestPage : List (NormalizedPage × Nat)
  latestComment : List (String × Nat)

def TemporalContext.empty : TemporalContext := ⟨[], [], []⟩

def recordTemporalPage (context : TemporalContext) (page : NormalizedPage) (index : Nat) :
    TemporalContext where
  latestField := ((page.height, page.codes), index) :: context.latestField
  latestPage := (page, index) :: context.latestPage
  latestComment :=
    if page.comment = "" then context.latestComment
    else (page.comment, index) :: context.latestComment

/-- `map.get(key).copied().filter(|prior| *prior + 1 != index)`. -/
def priorIndex {α : Type} [BEq α] (latest : List (α × Nat)) (key : α) (index : Nat) : Option Nat :=
  (latest.lookup key).filter fun prior => prior + 1 ≠ index

def writeTemporalFlags (flags : Ctk3PageFlags) (previous : Option Ctk3PageFlags) : Write :=
  if flags = .standard then writeBit false
  else if previous = some flags then writeBits 1 2
  else writeBits 3 2 >=> writeBits flags.bits 5

def writeTemporalHeight (height : Nat) : Option Nat → Write
  | none => writeVarUint height
  | some previous => if height = previous then writeBit false else writeBit true >=> writeVarUint height

def writeTemporalGarbage (garbage previous : Option (List Nat)) : Write :=
  match garbage with
  | none => writeBit false
  | some garbage =>
    if previous = some garbage then writeBits 1 2
    else writeBits 3 2 >=> writeBestCellEncoding garbage previous 4 true

/-- A reference to the page `distance` pages back, if there is one. -/
def referenceCandidate (mode modeWidth index : Nat) (prior : Option Nat) :
    Except Ctk3CodecError (List BitWriter) :=
  match prior with
  | none => pure []
  | some prior => do
    let referenced ← (writeBits mode modeWidth >=> writeVarUint (index - prior - 1)) .empty
    pure [referenced]

section

variable (pages : List NormalizedPage) (width : Nat) (shared : Option SharedFieldPredictor)
  (context : TemporalContext) (index : Nat)

/-- The page before `index`. -/
def previousPage : Option NormalizedPage := (pages.take index).getLast?

def writeTemporalComment (comment : String) : Write :=
  if comment = "" then writeBit false
  else fun w => do
    let literal ← (writeBits 7 3 >=> writeCommentLiteral comment) .empty
    let copied ← candidateIf ((previousPage pages index).any (·.comment = comment))
      (writeBits 1 2 .empty)
    let referenced ← referenceCandidate 3 3 index (priorIndex context.latestComment comment index)
    append (shortest literal (copied ++ referenced)) w

/-- The move from the previous operation, if only the place has changed. -/
def movedCandidate (operation : Ctk3Operation) (previous : Option Ctk3Operation) :
    Except Ctk3CodecError (List BitWriter) :=
  match previous with
  | some previous =>
    candidateIf (previous.piece = operation.piece ∧ previous.rotation = operation.rotation)
      ((writeBits 3 3 >=> writeSignedVarInt (operation.x - previous.x) >=>
        writeSignedVarInt (operation.y - previous.y)) .empty)
  | none => pure []

def writeTemporalOperation (operation previous : Option Ctk3Operation) : Write :=
  match operation with
  | none => writeBit false
  | some operation =>
    if previous = some operation then writeBits 1 2
    else fun w => do
      let literal ← (writeBits 7 3 >=> writeOperationBody operation) .empty
      let moved ← movedCandidate operation previous
      append (shortest literal moved) w

/-- Mode, predictor and distance of a way to write a field. -/
structure Prediction where
  mode : Nat
  predictor : Option (List Nat)
  distance : Option Nat

/-- `add_field_candidate`. -/
def fieldCandidate (codes : List Nat) (prediction : Prediction) : Encoding :=
  (writeBits prediction.mode 4 >=>
    writeOptional (fun distance => writeVarUint (distance - 1)) prediction.distance >=>
    match prediction.predictor with
    | some predictor => writeBestPredictedCellEncoding codes predictor 4
    | none => writeBestCellEncoding codes none 4 true) .empty

/-- Modes 1 to 7. -/
def previousPredictions (height : Nat) (previous : NormalizedPage) : List Prediction :=
  let count := height * width
  [⟨1, some (fitCodes previous.codes count), none⟩,
   ⟨2, some (grayscaleCodes previous.codes count), none⟩,
   ⟨3, some (mirrorCodes previous.codes previous.height width height), none⟩,
   ⟨4, some (predictLockedCodes previous width height false false), none⟩,
   ⟨5, some (predictLockedCodes previous width height false true), none⟩,
   ⟨6, some (predictLockedCodes previous width height true false), none⟩,
   ⟨7, some (predictLockedCodes previous width height true true), none⟩]

/-- The last page with this field, and the pages of the window. -/
def fieldReferences (page : NormalizedPage) : List Nat :=
  let exact := (priorIndex context.latestField (page.height, page.codes) index).toList
  let start := index - temporalReferenceWindow
  exact ++ (List.range' start (index - 1 - start)).filter fun prior => !exact.contains prior

/-- Modes 8 and 9. -/
def referencePredictions (height prior : Nat) : List Prediction :=
  match pages[prior]? with
  | some reference =>
    [⟨8, some (fitCodes reference.codes (height * width)), some (index - prior)⟩,
     ⟨9, some (mirrorCodes reference.codes reference.height width height), some (index - prior)⟩]
  | none => []

/-- Mode 10. -/
def sharedPredictions (height : Nat) : List Prediction :=
  match shared with
  | some shared => [⟨10, some (fitCodes shared.codes (height * width)), none⟩]
  | none => []

def fieldPredictions (page : NormalizedPage) : List Prediction :=
  (previousPage pages index).toList.flatMap (previousPredictions width page.height) ++
    (fieldReferences context index page).flatMap
      (referencePredictions pages width index page.height) ++
    sharedPredictions width shared page.height

def writeTemporalField (page : NormalizedPage) : Write := fun w => do
  let plain ← fieldCandidate page.codes ⟨0, none, none⟩
  let predicted ← (fieldPredictions pages width shared context index page).mapM
    (fieldCandidate page.codes)
  append (shortest plain predicted) w

def writeTemporalPage (page : NormalizedPage) : Write :=
  let previous := previousPage pages index
  writeTemporalFlags page.flags (previous.map NormalizedPage.flags) >=>
    writeTemporalHeight page.height (previous.map NormalizedPage.height) >=>
    writeTemporalField pages width shared context index page >=>
    writeTemporalGarbage page.garbageCodes (previous.bind NormalizedPage.garbageCodes) >=>
    writeTemporalComment pages context index page.comment >=>
    writeTemporalOperation page.operation (previous.bind NormalizedPage.operation)

/-- How many pages from here on equal the previous one. -/
def repeatCount (page : NormalizedPage) : Nat :=
  if previousPage pages index = some page then ((pages.drop index).takeWhile (· == page)).length
  else 0

/-- A run of repeats, if it is shorter than one repeat after another. -/
def repeatRun (count : Nat) : Except Ctk3CodecError (Option BitWriter) :=
  if count ≥ 2 then do
    let run ← (writeBits 3 2 >=> writeVarUint (count - 2)) .empty
    pure (if run.bitLen < count * 2 then some run else none)
  else pure none

def writePageCandidates (page : NormalizedPage) : Write := fun w => do
  let normal ←
    (writeBits 0 2 >=> writeTemporalPage pages width shared context index page) .empty
  let copied ← candidateIf (previousPage pages index = some page) (writeBits 1 2 .empty)
  let referenced ← referenceCandidate 2 2 index (priorIndex context.latestPage page index)
  append (shortest normal (copied ++ referenced)) w

end

/-- `record_temporal_page` for `count` equal pages from `index` on. -/
def recordRun (context : TemporalContext) (page : NormalizedPage) (index count : Nat) :
    TemporalContext :=
  (List.range' index count).foldl (fun context index => recordTemporalPage context page index) context

/-- The loop of `write_temporal_pages`; every round takes at least one page. -/
def writeTemporalLoop (pages : List NormalizedPage) (width : Nat)
    (shared : Option SharedFieldPredictor) : Nat → Nat → TemporalContext → Write
  | 0, _, _ => pure
  | rounds + 1, index, context =>
    match pages[index]? with
    | none => pure
    | some page => fun w => do
      let count := repeatCount pages index page
      let run ← repeatRun count
      match run with
      | some run =>
        (append run >=> writeTemporalLoop pages width shared rounds (index + count)
          (recordRun context page index count)) w
      | none =>
        (writePageCandidates pages width shared context index page >=>
          writeTemporalLoop pages width shared rounds (index + 1)
            (recordTemporalPage context page index)) w

def writeTemporalPages (pages : List NormalizedPage) (width : Nat)
    (shared : Option SharedFieldPredictor) : Write :=
  writeTemporalLoop pages width shared pages.length 0 .empty

/-! ## Documents -/

def writePages (width : Nat) (pages : List NormalizedPage) (revision : Nat)
    (shared : Option SharedFieldPredictor) : Write :=
  if revision = compactSchemaRevision then writeCompactPages none pages
  else if revision = temporalSchemaRevision then writeTemporalPages pages width none
  else if revision = sharedFieldSchemaRevision then
    match shared with
    | none => fun _ => .error (.invalidPayload "shared field is missing")
    | some shared =>
      writeVarUint shared.height >=> writeBestCellEncoding shared.codes none 4 true >=>
        writeTemporalPages pages width (some shared)
  else fun _ => .error (.invalidPayload "schema revision is unsupported")

def writeDocument (width : Nat) (pages : List NormalizedPage) (revision : Nat)
    (shared : Option SharedFieldPredictor) : Write :=
  writeBits magic 8 >=> writeBits revision 3 >=> writeBits (width - 1) 5 >=>
    writeVarUint pages.length >=> writeBit false >=> writePages width pages revision shared

def encodeNormalized (width : Nat) (pages : List NormalizedPage) (revision : Nat)
    (shared : Option SharedFieldPredictor) : Except Ctk3CodecError (Nat × List Byte) := do
  let writer ← writeDocument width pages revision shared .empty
  let size := writer.bytes.length + 2
  Lib.refuseIf (size > maxPayloadBytes) (.payloadTooLarge size)
  pure (revision, writer.bytes ++ crcBytes (crc16 writer.bytes))

/-- The candidate with a shared field, if the pages have one. -/
def encodeShared (width : Nat) (pages : List NormalizedPage) :
    Except Ctk3CodecError (List (Nat × List Byte)) :=
  match buildSharedField pages width with
  | none => pure []
  | some shared => do
    let encoded ← encodeNormalized width pages sharedFieldSchemaRevision (some shared)
    pure [encoded]

/-- The shorter payload, the lower revision among those of one length. -/
def selectCandidate (selected candidate : Nat × List Byte) : Nat × List Byte :=
  if candidate.2.length < selected.2.length ∨
      (candidate.2.length = selected.2.length ∧ candidate.1 < selected.1) then candidate
  else selected

/-- The text of a payload. -/
def ctk64Text (payload : List Byte) : String := String.ofList (ctk3Prefix ++ encodeCtk64 payload)

def encodeCtk3 (document : Ctk3Document) : Except Ctk3CodecError String := do
  let pages ← normalizeDocument document
  let compact ← encodeNormalized document.width pages compactSchemaRevision none
  let temporal ← encodeNormalized document.width pages temporalSchemaRevision none
  let shared ← encodeShared document.width pages
  pure (ctk64Text ((temporal :: shared).foldl selectCandidate compact).2)

def encodeCtk3Compact (document : Ctk3Document) : Except Ctk3CodecError String := do
  let pages ← normalizeDocument document
  let compact ← encodeNormalized document.width pages compactSchemaRevision none
  pure (ctk64Text compact.2)

end Clearra.Ctk3
