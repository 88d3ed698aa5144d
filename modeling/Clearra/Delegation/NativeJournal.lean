import Clearra.Delegation.Event
import Clearra.Lib.Fallible

/-!
# The journal on disk

`NativeJsonlDelegationJournal`: one JSON line an event, after a header line when the journal is bound
to a job. Opening reads the whole file back, drops a last line without its newline, and refuses
anything else it cannot read. The writer holds the file alone and writes at its end, so the file is
the list of its bytes; where a write stops and whether a sync fails is an argument of each call. The
checks on the path (marker, symbolic link, lock) come before the bytes are read and are not modelled.
-/

namespace Clearra.Delegation

open Lib (JsonValue JsonReader utf8 fromUtf8)
open Lib

def headerSchema : String := "clearra.delegation-journal-header.v1"

def isUuid (value : String) : Bool :=
  value.toList.length == 36 &&
    value.toList.zipIdx.all fun (c, index) =>
      if index = 8 ∨ index = 13 ∨ index = 18 ∨ index = 23 then c == '-' else isLowerHex c

/-- `str::trim_end_matches`. -/
def trimEndMatches (c : Char) (text : String) : String :=
  String.ofList (text.toList.reverse.dropWhile (· == c)).reverse

def canonicalEventJson (event : DelegationEvent) : String :=
  trimEndMatches '}' (canonicalHashMaterial event.sequence event.toDelegationEventDraft
      event.previousEventSha256) ++
    ",\"event_sha256\":" ++ jsonString event.eventSha256 ++ "\x7d"

def canonicalNativeHeader (jobId : String) : String :=
  renderObject [("schema", some headerSchema), ("job_id", some jobId)] ++ "\n"

example : canonicalNativeHeader "job" =
    "\x7b\"schema\":\"clearra.delegation-journal-header.v1\",\"job_id\":\"job\"\x7d\n" := by
  decide

/-! ## Reading an event -/

def DelegationPhase.parse (value : String) : Option DelegationPhase :=
  [DelegationPhase.prepared, .offered, .accepted, .published, .running, .renewed, .resultSealed,
    .resultApplied, .completed, .revoked, .expired, .cancelled, .failedClosed].find?
    fun phase => phase.asStr == value

/-- `serde_json::Map`, by its members. -/
abbrev JsonObject := List (String × JsonValue)

def stringField (object : JsonObject) (key : String) (line : Nat) :
    Except DelegationJournalError String :=
  match object.lookup key with
  | some (.string value) => .ok value
  | _ => .error (.corrupt line ("missing string field " ++ key))

def optionalStringField (object : JsonObject) (key : String) (line : Nat) :
    Except DelegationJournalError (Option String) :=
  match object.lookup key with
  | some .null => .ok none
  | some (.string value) => .ok (some value)
  | _ => .error (.corrupt line ("invalid optional string field " ++ key))

/-- `str::parse::<u64>`, on a text of digits. -/
def parseU64 (value key : String) (line : Nat) : Except DelegationJournalError UInt64 :=
  match value.toNat? with
  | some n =>
    if n < 2 ^ 64 then .ok (UInt64.ofNat n)
    else .error (.corrupt line ("invalid decimal field " ++ key))
  | none => .error (.corrupt line ("invalid decimal field " ++ key))

def decimalField (object : JsonObject) (key : String) (line : Nat) :
    Except DelegationJournalError UInt64 := do
  let value ← stringField object key line
  refuseIf (value ≠ "0" ∧ (value.toList.head? = some '0' ∨ ¬value.toList.all Char.isDigit))
    (.corrupt line ("non-canonical decimal field " ++ key))
  parseU64 value key line

/-- `serde_json::from_str` and `as_object`. -/
def readObject [JsonReader] (text : String) (line : Nat) (notObject : String) :
    Except DelegationJournalError JsonObject :=
  match JsonReader.fromStr text with
  | .error message => .error (.corrupt line message)
  | .ok (.object object) => .ok object
  | .ok _ => .error (.corrupt line notObject)

/-- The fixed members of a record. -/
def checkSchema (object : JsonObject) (line : Nat) : Except DelegationJournalError Unit := do
  refuseIf (object.length ≠ 19) (.corrupt line "schema or field set mismatch")
  let schemaText ← stringField object "schema" line
  refuseIf (schemaText ≠ schema) (.corrupt line "schema or field set mismatch")

def parsePhase (object : JsonObject) (line : Nat) :
    Except DelegationJournalError DelegationPhase := do
  let phaseText ← stringField object "phase" line
  match DelegationPhase.parse phaseText with
  | some phase => .ok phase
  | none => .error (.corrupt line "unknown phase")

def parseComputeUnits (object : JsonObject) (line : Nat) : Except DelegationJournalError UInt32 := do
  let value ← decimalField object "compute_units" line
  if value.toNat < 2 ^ 32 then .ok (UInt32.ofNat value.toNat)
  else .error (.corrupt line "compute_units out of range")

def parseIdentity (object : JsonObject) (line : Nat) :
    Except DelegationJournalError DelegationIdentity := do
  let jobId ← stringField object "job_id" line
  let taskId ← stringField object "task_id" line
  let coordinatorId ← stringField object "coordinator_id" line
  let payloadSha256 ← stringField object "payload_sha256" line
  let requestSha256 ← stringField object "request_sha256" line
  let identity : DelegationIdentity := { jobId, taskId, coordinatorId, payloadSha256, requestSha256 }
  identity.validate.mapError fun _ => .corrupt line "invalid identity"
  pure identity

/-- The draft of a record whose identity, phase and compute units have been read. -/
def parseDraft (object : JsonObject) (line : Nat) (identity : DelegationIdentity)
    (phase : DelegationPhase) (computeUnits : UInt32) :
    Except DelegationJournalError DelegationEventDraft := do
  let memoryBytes ← decimalField object "memory_bytes" line
  let fencingToken ← decimalField object "fencing_token" line
  let workerId ← optionalStringField object "worker_id" line
  let reservationSha256 ← optionalStringField object "reservation_sha256" line
  let resultSha256 ← optionalStringField object "result_sha256" line
  let workerReplySha256 ← optionalStringField object "worker_reply_sha256" line
  let timestampUnixMs ← decimalField object "timestamp_unix_ms" line
  let reason ← optionalStringField object "reason" line
  pure {
    identity, phase, fencingToken, workerId, reservationSha256, resultSha256, workerReplySha256,
    timestampUnixMs, reason
    budget := ⟨computeUnits, memoryBytes⟩ }

/-- `is_some_and(|digest| !is_sha256(digest))`, the other way round. -/
def digestValid (digest : Option String) : Bool := digest.all isSha256

def parseEvent [Sha256] [JsonReader] (text : String) (line : Nat) :
    Except DelegationJournalError DelegationEvent := do
  let object ← readObject text line "record is not an object"
  checkSchema object line
  let sequence ← decimalField object "sequence" line
  let phase ← parsePhase object line
  let computeUnits ← parseComputeUnits object line
  let identity ← parseIdentity object line
  let previousEventSha256 ← stringField object "previous_event_sha256" line
  let eventSha256 ← stringField object "event_sha256" line
  refuseIf (¬isSha256 previousEventSha256 ∨ ¬isSha256 eventSha256)
    (.corrupt line "invalid event digest")
  let draft ← parseDraft object line identity phase computeUnits
  refuseIf (¬digestValid draft.reservationSha256) (.corrupt line "invalid reservation digest")
  refuseIf (¬digestValid draft.resultSha256 ∨ ¬digestValid draft.workerReplySha256)
    (.corrupt line "invalid sealed result digest")
  refuseIf
    (Sha256.hex (utf8 (canonicalHashMaterial sequence draft previousEventSha256)) ≠ eventSha256)
    (.corrupt line "event digest mismatch")
  pure { draft with sequence, previousEventSha256, eventSha256 }

/-! ## Reading the file -/

/-- `std::str::from_utf8`, with its error. -/
def decodeText (bytes : List UInt8) (line : Nat) (reason : String) :
    Except DelegationJournalError String :=
  match fromUtf8 bytes with
  | some text => .ok text
  | none => .error (.corrupt line reason)

/-- The body of the loop of `recover_jsonl`: one line that has its newline. -/
def recoverLine [Sha256] [JsonReader] (records : List DelegationEvent) (bytes : List UInt8) :
    Except DelegationJournalError DelegationEvent := do
  let line := records.length + 1
  let text ← decodeText bytes line "invalid UTF-8"
  let event ← parseEvent text line
  let expectedSequence ← nextSequence records
  refuseIf (event.sequence ≠ expectedSequence) (.corrupt line "sequence gap")
  refuseIf (event.previousEventSha256 ≠ chainHead records) (.corrupt line "hash-chain mismatch")
  pure event

/-- The loop of `recover_jsonl`, byte by byte: the records so far, the offset of the current line and
the bytes of it already seen, last first. A line that the file ends in is dropped. -/
def recoverFrom [Sha256] [JsonReader] (records : List DelegationEvent) (offset : Nat)
    (seen : List UInt8) : List UInt8 → Except DelegationJournalError (List DelegationEvent × Nat)
  | [] => .ok (records, offset)
  | b :: rest =>
    if b = 0x0a then do
      let event ← recoverLine records seen.reverse
      recoverFrom (records ++ [event]) (offset + seen.length + 1) [] rest
    else recoverFrom records offset (b :: seen) rest

def recoverJsonl [Sha256] [JsonReader] (bytes : List UInt8) :
    Except DelegationJournalError (List DelegationEvent × Nat) :=
  recoverFrom [] 0 [] bytes

/-- The checks of `parse_native_header_parts` on the line before the first newline. -/
def parseHeaderLine [JsonReader] (line : List UInt8) : Except DelegationJournalError String := do
  let text ← decodeText line 1 "durable journal header is not UTF-8"
  let object ← readObject text 1 "durable journal header is not an object"
  refuseIf (object.length ≠ 2) (.corrupt 1 "durable journal header schema or field set mismatch")
  let schemaText ← stringField object "schema" 1
  refuseIf (schemaText ≠ headerSchema)
    (.corrupt 1 "durable journal header schema or field set mismatch")
  let jobId ← stringField object "job_id" 1
  refuseIf (¬isUuid jobId ∨ line ++ [0x0a] ≠ utf8 (canonicalNativeHeader jobId))
    (.corrupt 1 "durable journal header is non-canonical")
  pure jobId

/-- The job a header names, and the length of the header. -/
def parseNativeHeaderParts [JsonReader] (bytes : List UInt8) :
    Except DelegationJournalError (String × Nat) := do
  let line := bytes.takeWhile (· ≠ 0x0a)
  refuseIf (line.length = bytes.length) (.corrupt 1 "durable journal header is torn")
  let jobId ← parseHeaderLine line
  pure (jobId, line.length + 1)

def parseNativeHeader [JsonReader] (bytes : List UInt8) (expectedJobId : String) :
    Except DelegationJournalError Nat := do
  let (jobId, headerLen) ← parseNativeHeaderParts bytes
  refuseIf (jobId ≠ expectedJobId) (.corrupt 1 "durable journal header belongs to another job")
  pure headerLen

structure NativeJsonlDelegationJournal where
  path : String
  file : List UInt8
  records : List DelegationEvent
  quarantineReason : Option String
  jobId : Option String
  headerLen : Nat

/-- What `open_bound` makes of a corrupt file: it is moved to the side and refused. -/
def quarantineNative [Sha256] (path : String) (bytes : List UInt8) :
    DelegationJournalError → DelegationJournalError
  | .corrupt line reason =>
    .quarantined (path ++ ".quarantine-" ++ Sha256.hex bytes) ("line " ++ toString line ++ ": " ++ reason)
  | error => error

/-- The bytes the journal starts from and the length of their header; an empty file bound to a job gets
its header first. -/
def bindHeader [Sha256] [JsonReader] (path : String) (bytes : List UInt8) :
    Option String → Except DelegationJournalError (List UInt8 × Nat)
  | none => .ok (bytes, 0)
  | some jobId =>
    if bytes = [] then
      .ok (utf8 (canonicalNativeHeader jobId), (utf8 (canonicalNativeHeader jobId)).length)
    else do
      let headerLen ← (parseNativeHeader bytes jobId).mapError (quarantineNative path bytes)
      pure (bytes, headerLen)

/-- `open_bound`, from the bytes it reads. -/
def openBound [Sha256] [JsonReader] (path : String) (bytes : List UInt8)
    (expectedJobId : Option String) :
    Except DelegationJournalError NativeJsonlDelegationJournal := do
  let (bytes, headerLen) ← bindHeader path bytes expectedJobId
  let (records, validEventLen) ←
    (recoverJsonl (bytes.drop headerLen)).mapError (quarantineNative path bytes)
  refuseIf (expectedJobId.any fun jobId => records.any (·.identity.jobId ≠ jobId))
    (.quarantined (path ++ ".quarantine-" ++ Sha256.hex bytes)
      "journal event job_id does not match its durable header")
  pure {
    path, records, headerLen
    file := bytes.take (headerLen + validEventLen)
    quarantineReason := none
    jobId := expectedJobId }

/-- `open`. -/
def openPath [Sha256] [JsonReader] (path : String) (bytes : List UInt8) :
    Except DelegationJournalError NativeJsonlDelegationJournal :=
  openBound path bytes none

def openForJob [Sha256] [JsonReader] (root jobId : String) (bytes : List UInt8) :
    Except DelegationJournalError NativeJsonlDelegationJournal := do
  refuseIf (¬isUuid jobId) (.corrupt 0 "job_id must be a canonical lowercase UUID")
  openBound (root ++ "/" ++ Sha256.hex (utf8 jobId) ++ ".jsonl") bytes (some jobId)

def openExistingJobForRecovery [Sha256] [JsonReader] (path : String) (bytes : List UInt8) :
    Except DelegationJournalError NativeJsonlDelegationJournal := do
  let (jobId, _) ← (parseNativeHeaderParts bytes).mapError (quarantineNative path bytes)
  openBound path bytes (some jobId)

/-! ## Writing -/

namespace NativeJsonlDelegationJournal

open Lib.Fallible (read update lift refuseIf)

abbrev JournalM := Fallible NativeJsonlDelegationJournal DelegationJournalError

/-- Where the two writes of an append stop, if they do, and whether its sync fails. -/
structure WriteFaults where
  line : Option Nat
  newline : Option Nat
  syncFails : Bool
  deriving DecidableEq

/-- `write_all` at the end of the file; one that stops leaves the bytes before that. -/
def writeAll (bytes : List UInt8) (stop : Option Nat) : JournalM Unit := fun journal =>
  match stop with
  | none => (.ok (), { journal with file := journal.file ++ bytes })
  | some n => (.error (.io "write failed"), { journal with file := journal.file ++ bytes.take n })

/-- `flush` and `sync_all`. -/
def syncAll (fails : Bool) : JournalM Unit := refuseIf (fails = true) (.io "sync failed")

def refuseQuarantined : JournalM Unit := do
  let journal ← read
  lift (match journal.quarantineReason with
    | some reason => .error (.corrupt 0 ("journal is quarantined: " ++ reason))
    | none => .ok ())

def append [Sha256] (draft : DelegationEventDraft) (faults : WriteFaults) :
    JournalM DelegationEvent := do
  refuseQuarantined
  let journal ← read
  refuseIf (journal.jobId.any (draft.identity.jobId ≠ ·)) (.corrupt (journal.records.length + 1)
    "delegation job_id does not match the durable journal header")
  let event ← lift (buildEvent journal.records draft)
  writeAll (utf8 (canonicalEventJson event)) faults.line
  writeAll [0x0a] faults.newline
  syncAll faults.syncFails
  update fun journal => { journal with records := journal.records ++ [event] }
  pure event

def resetIfHead (expectedEventSha256 : String) (syncFails : Bool) : JournalM Unit := do
  refuseQuarantined
  let journal ← read
  lift (ensureExpectedHead journal.records expectedEventSha256)
  -- `set_len` and `seek`: the writer is at the end of the file again
  update fun journal => { journal with file := journal.file.take journal.headerLen }
  syncAll syncFails
  update fun journal => { journal with records := [] }

end NativeJsonlDelegationJournal

end Clearra.Delegation
