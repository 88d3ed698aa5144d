import Clearra.Lib.JsonText
import Clearra.Lib.Result

/-!
# Delegation events

What the journal of `durable_delegation_journal.rs` records: who delegates what under which budget
and fencing token, one event for each change of phase, every event carrying the digest of the one
before it.
-/

namespace Clearra.Delegation

def offerAcceptTimeoutMs : Nat := 10000
def persistedRenewalIntervalMs : Nat := 30000
def activeLeaseExpiryMs : Nat := 120000
def terminalTombstoneRetentionMs : Nat := 24 * 60 * 60 * 1000

def schema : String := "clearra.delegation-journal.v1"
def zeroSha256 : String := "0000000000000000000000000000000000000000000000000000000000000000"

/-- `u64::saturating_sub`. -/
def saturatingSub (a b : UInt64) : Nat := a.toNat - b.toNat

/-- `u64::checked_add`. -/
def checkedAdd (a : UInt64) (n : Nat) : Option UInt64 :=
  if a.toNat + n < 2 ^ 64 then some (UInt64.ofNat (a.toNat + n)) else none

def isLowerHex (c : Char) : Bool := ('0' ≤ c && c ≤ '9') || ('a' ≤ c && c ≤ 'f')

def isSha256 (value : String) : Bool := value.toList.length == 64 && value.toList.all isLowerHex

def isWorkerId (value : String) : Bool :=
  match value.toNat? with
  | some workerId => decide (workerId < 2 ^ 32) && decide (workerId > 0) && toString workerId == value
  | none => false

structure DelegationBudget where
  computeUnits : UInt32
  memoryBytes : UInt64
  deriving DecidableEq

def DelegationBudget.new (computeUnits : UInt32) (memoryBytes : UInt64) : Option DelegationBudget :=
  if computeUnits = 0 then none else some ⟨computeUnits, memoryBytes⟩

inductive DelegationPhase where
  | prepared | offered | accepted | published | running | renewed | resultSealed | resultApplied
  | completed | revoked | expired | cancelled | failedClosed
  deriving DecidableEq

namespace DelegationPhase

def asStr : DelegationPhase → String
  | prepared => "prepared"
  | offered => "offered"
  | accepted => "accepted"
  | published => "published"
  | running => "running"
  | renewed => "renewed"
  | resultSealed => "result-sealed"
  | resultApplied => "result-applied"
  | completed => "completed"
  | revoked => "revoked"
  | expired => "expired"
  | cancelled => "cancelled"
  | failedClosed => "failed-closed"

def terminal : DelegationPhase → Bool
  | completed | revoked | expired | cancelled | failedClosed => true
  | _ => false

/-- The four ways a delegation ends without a result; allowed from every phase still open. -/
def closing : DelegationPhase → Bool
  | revoked | expired | cancelled | failedClosed => true
  | _ => false

end DelegationPhase

def validTransition (source target : DelegationPhase) : Bool :=
  if source.terminal then false
  else if target.closing then true
  else
    match source, target with
    | .prepared, .offered | .offered, .accepted | .accepted, .published | .published, .running
    | .running, .renewed | .renewed, .renewed | .running, .resultSealed | .renewed, .resultSealed
    | .resultSealed, .resultApplied | .resultApplied, .completed => true
    | _, _ => false

inductive DelegationJournalError where
  | io (message : String)
  | corrupt (line : Nat) (reason : String)
  | quarantined (path reason : String)
  | writerAlreadyActive (path : String)
  | headChanged (expected : String) (actual : Option String)
  | injectedFailure
  deriving DecidableEq

/-- `Display`. -/
def DelegationJournalError.display : DelegationJournalError → String
  | io message => "delegation journal I/O failed: " ++ message
  | corrupt line reason => "delegation journal line " ++ toString line ++ " is corrupt: " ++ reason
  | quarantined path reason => "delegation journal is quarantined at " ++ path ++ ": " ++ reason
  | writerAlreadyActive path => "delegation journal already has an active writer: " ++ path
  | headChanged expected actual =>
    "delegation journal head changed: expected " ++ expected ++ ", found " ++ actual.getD "<empty>"
  | injectedFailure => "delegation journal injected failure"

inductive DurableDelegationError where
  | journal (error : DelegationJournalError)
  | invalidIdentity
  | unknownDelegation
  | staleFence
  | invalidTransition (source target : DelegationPhase)
  | offerExpired
  | leaseExpired
  | identityAlreadyUsed
  | resultDigestMismatch
  | sequenceExhausted
  | fencingTokenExhausted
  deriving DecidableEq

/-- `Display`. -/
def DurableDelegationError.display : DurableDelegationError → String
  | journal error => error.display
  | invalidIdentity => "invalid delegation identity"
  | unknownDelegation => "unknown delegation"
  | staleFence => "stale delegation fencing token"
  | invalidTransition source target =>
    "invalid delegation transition " ++ source.asStr ++ " -> " ++ target.asStr
  | offerExpired => "delegation offer expired"
  | leaseExpired => "delegation lease expired"
  | identityAlreadyUsed => "delegation identity already used"
  | resultDigestMismatch => "delegation result digest does not match the sealed result"
  | sequenceExhausted => "delegation sequence exhausted"
  | fencingTokenExhausted => "delegation fencing token exhausted"

structure DelegationIdentity where
  jobId : String
  taskId : String
  coordinatorId : String
  payloadSha256 : String
  requestSha256 : String
  deriving DecidableEq

def DelegationIdentity.validate (identity : DelegationIdentity) :
    Except DurableDelegationError Unit := do
  Lib.refuseIf (identity.jobId = "" ∨ identity.taskId = "" ∨ identity.coordinatorId = "")
    .invalidIdentity
  Lib.refuseIf (¬isSha256 identity.payloadSha256 ∨ ¬isSha256 identity.requestSha256)
    .invalidIdentity

structure DelegationEventDraft where
  identity : DelegationIdentity
  budget : DelegationBudget
  phase : DelegationPhase
  fencingToken : UInt64
  workerId : Option String
  reservationSha256 : Option String
  resultSha256 : Option String
  workerReplySha256 : Option String
  timestampUnixMs : UInt64
  reason : Option String
  deriving DecidableEq

structure DelegationEvent extends DelegationEventDraft where
  sequence : UInt64
  previousEventSha256 : String
  eventSha256 : String
  deriving DecidableEq

/-- `sha256_hex`; the hash itself comes from outside the repository. -/
class Sha256 where
  hex : List UInt8 → String
  isSha256_hex : ∀ bytes, isSha256 (hex bytes)

/-- The members of the hashed text, in the order of its format string. -/
def materialFields (sequence : UInt64) (draft : DelegationEventDraft)
    (previousEventSha256 : String) : List (String × Option String) :=
  [("schema", some schema),
    ("sequence", some (toString sequence.toNat)),
    ("job_id", some draft.identity.jobId),
    ("task_id", some draft.identity.taskId),
    ("coordinator_id", some draft.identity.coordinatorId),
    ("payload_sha256", some draft.identity.payloadSha256),
    ("request_sha256", some draft.identity.requestSha256),
    ("compute_units", some (toString draft.budget.computeUnits.toNat)),
    ("memory_bytes", some (toString draft.budget.memoryBytes.toNat)),
    ("phase", some draft.phase.asStr),
    ("fencing_token", some (toString draft.fencingToken.toNat)),
    ("worker_id", draft.workerId),
    ("reservation_sha256", draft.reservationSha256),
    ("result_sha256", draft.resultSha256),
    ("worker_reply_sha256", draft.workerReplySha256),
    ("timestamp_unix_ms", some (toString draft.timestampUnixMs.toNat)),
    ("reason", draft.reason),
    ("previous_event_sha256", some previousEventSha256)]

def canonicalHashMaterial (sequence : UInt64) (draft : DelegationEventDraft)
    (previousEventSha256 : String) : String :=
  Lib.renderObject (materialFields sequence draft previousEventSha256)

/-- The digest of the last event, or the digest a chain starts from. -/
def chainHead (records : List DelegationEvent) : String :=
  match records.getLast? with
  | none => zeroSha256
  | some event => event.eventSha256

def nextSequence (records : List DelegationEvent) : Except DelegationJournalError UInt64 :=
  if records.length + 1 < 2 ^ 64 then .ok (UInt64.ofNat (records.length + 1))
  else .error (.corrupt (records.length + 1) "sequence exhausted")

def buildEvent [Sha256] (records : List DelegationEvent) (draft : DelegationEventDraft) :
    Except DelegationJournalError DelegationEvent := do
  let sequence ← nextSequence records
  let previousEventSha256 := chainHead records
  let eventSha256 :=
    Sha256.hex (Lib.utf8 (canonicalHashMaterial sequence draft previousEventSha256))
  pure { draft with sequence, previousEventSha256, eventSha256 }

def ensureExpectedHead (records : List DelegationEvent) (expectedEventSha256 : String) :
    Except DelegationJournalError Unit :=
  let actual := records.getLast?.map (·.eventSha256)
  Lib.refuseIf (actual ≠ some expectedEventSha256) (.headChanged expectedEventSha256 actual)

/-! ## Journals -/

/-- The trait the authority is generic over. A refused call may still change the journal. -/
class DelegationJournal (J : Type) where
  records : J → List DelegationEvent
  quarantineReason : J → Option String
  quarantine : String → J → Except DelegationJournalError Unit × J
  append : DelegationEventDraft → J → Except DelegationJournalError DelegationEvent × J
  resetIfHead : String → J → Except DelegationJournalError Unit × J

structure MemoryDelegationJournal where
  records : List DelegationEvent
  failNextAppend : Bool
  failNextReset : Bool
  quarantineReason : Option String
  deriving DecidableEq

namespace MemoryDelegationJournal

/-- `MemoryDelegationJournal::default()`. -/
def empty : MemoryDelegationJournal := ⟨[], false, false, none⟩

def quarantine (reason : String) (journal : MemoryDelegationJournal) :
    Except DelegationJournalError Unit × MemoryDelegationJournal :=
  (.ok (), { journal with quarantineReason := some reason })

def append [Sha256] (draft : DelegationEventDraft) (journal : MemoryDelegationJournal) :
    Except DelegationJournalError DelegationEvent × MemoryDelegationJournal :=
  match journal.quarantineReason with
  | some reason => (.error (.corrupt 0 ("journal is quarantined: " ++ reason)), journal)
  | none =>
    if journal.failNextAppend then
      (.error .injectedFailure, { journal with failNextAppend := false })
    else
      match buildEvent journal.records draft with
      | .error error => (.error error, journal)
      | .ok event => (.ok event, { journal with records := journal.records ++ [event] })

def resetIfHead (expectedEventSha256 : String) (journal : MemoryDelegationJournal) :
    Except DelegationJournalError Unit × MemoryDelegationJournal :=
  match journal.quarantineReason with
  | some reason => (.error (.corrupt 0 ("journal is quarantined: " ++ reason)), journal)
  | none =>
    if journal.failNextReset then (.error .injectedFailure, { journal with failNextReset := false })
    else
      match ensureExpectedHead journal.records expectedEventSha256 with
      | .error error => (.error error, journal)
      | .ok () => (.ok (), { journal with records := [] })

end MemoryDelegationJournal

instance [Sha256] : DelegationJournal MemoryDelegationJournal where
  records := MemoryDelegationJournal.records
  quarantineReason := MemoryDelegationJournal.quarantineReason
  quarantine := MemoryDelegationJournal.quarantine
  append := MemoryDelegationJournal.append
  resetIfHead := MemoryDelegationJournal.resetIfHead

end Clearra.Delegation
