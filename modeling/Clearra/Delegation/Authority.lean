import Clearra.Delegation.Event
import Clearra.Lib.Fallible

/-!
# The delegation authority

`DurableDelegationAuthority`: the live state of every delegation, kept next to the journal it is
written to. Each operation checks, appends one event and then changes the state; after a restart the
state is rebuilt from the journal alone by `replay`, whose rules are written a second time.
-/

namespace Clearra.Delegation

open Lib

/-- The order of `(String, String)`. -/
def keyOrder : String × String → String × String → Ordering :=
  compareLex (compareOn Prod.fst) (compareOn Prod.snd)

instance : Std.TransCmp keyOrder :=
  inferInstanceAs (Std.TransCmp (compareLex (compareOn Prod.fst) (compareOn Prod.snd)))

instance : Std.LawfulEqCmp keyOrder where
  eq_of_compare := by
    intro a b h
    simp only [keyOrder, compareLex, compareOn, Ordering.then_eq_eq, compare_eq_iff_eq] at h
    exact Prod.ext h.1 h.2
  compare_self := by
    intro a
    simp [keyOrder, compareLex, compareOn]

structure DelegationToken where
  jobId : String
  taskId : String
  fencingToken : UInt64
  deriving DecidableEq

def DelegationToken.key (token : DelegationToken) : String × String := (token.jobId, token.taskId)

def DelegationIdentity.key (identity : DelegationIdentity) : String × String :=
  (identity.jobId, identity.taskId)

structure ExecutableDelegationPermit where
  jobId : String
  taskId : String
  workerId : String
  payloadSha256 : String
  requestSha256 : String
  fencingToken : UInt64
  publicationSequence : UInt64
  publicationSha256 : String
  expiresAtUnixMs : UInt64
  deriving DecidableEq

structure DelegationState where
  identity : DelegationIdentity
  budget : DelegationBudget
  phase : DelegationPhase
  fencingToken : UInt64
  workerId : Option String
  reservationSha256 : Option String
  resultSha256 : Option String
  workerReplySha256 : Option String
  offeredAtUnixMs : Option UInt64
  lastHeartbeatUnixMs : UInt64
  lastPersistedRenewalUnixMs : UInt64
  terminalAtUnixMs : Option UInt64
  deriving DecidableEq

/-- What the authority holds besides its journal, and what `replay` rebuilds. -/
structure Ledger where
  states : Std.TreeMap (String × String) DelegationState keyOrder
  nextFencingToken : UInt64

def Ledger.empty : Ledger := ⟨∅, 0⟩

structure DurableDelegationAuthority (J : Type) extends Ledger where
  journal : J

/-! ## Replay -/

def replayCorrupt (event : DelegationEvent) (reason : String) : DurableDelegationError :=
  .journal (.corrupt event.sequence.toNat reason)

/-- The part of `validate_replayed_event` that depends on the phase. -/
def validatePhaseFields (event : DelegationEvent) : Except DurableDelegationError Unit :=
  match event.phase with
  | .prepared | .offered => do
    refuseIf event.workerId.isSome
      (replayCorrupt event "worker reservation is forbidden before acceptance")
    refuseIf event.resultSha256.isSome
      (replayCorrupt event "result identity is forbidden before result sealing")
  | .accepted | .published | .running | .renewed => do
    refuseIf event.workerId.isNone
      (replayCorrupt event "accepted delegation is missing its worker reservation")
    refuseIf event.resultSha256.isSome
      (replayCorrupt event "result identity is forbidden before result sealing")
  | .resultSealed | .resultApplied | .completed => do
    refuseIf event.workerId.isNone
      (replayCorrupt event "accepted delegation is missing its worker reservation")
    refuseIf event.resultSha256.isNone
      (replayCorrupt event "sealed delegation is missing its result identity")
  | .revoked | .expired | .cancelled | .failedClosed => .ok ()

def validateReplayedEvent (event : DelegationEvent) : Except DurableDelegationError Unit := do
  event.identity.validate.mapError fun _ => replayCorrupt event "invalid identity"
  refuseIf (event.budget.computeUnits = 0) (replayCorrupt event "compute budget must be positive")
  refuseIf (event.fencingToken = 0) (replayCorrupt event "fencing token must be positive")
  refuseIf (event.workerId.isSome ≠ event.reservationSha256.isSome)
    (replayCorrupt event "worker identity and reservation digest must appear together")
  refuseIf (event.workerId.any (!isWorkerId ·))
    (replayCorrupt event "worker identity must be a job-local positive integer")
  refuseIf (event.resultSha256.isSome ≠ event.workerReplySha256.isSome)
    (replayCorrupt event "normalized result and worker reply digests must appear together")
  validatePhaseFields event

/-- Whether a pair of fields may go from what the state has to what the event has: set by the phase
that introduces it, and carried unchanged after that. -/
def pairCarried (phase introducedBy : DelegationPhase) (state event : Option String × Option String) :
    Bool :=
  match state with
  | (none, none) => phase == introducedBy || (event.1.isNone && event.2.isNone)
  | (some _, some _) => event == state
  | _ => false

/-- The state a replayed event leaves, once its checks have passed. -/
def DelegationState.advance (state : DelegationState) (event : DelegationEvent) : DelegationState :=
  { state with
    phase := event.phase
    workerId := event.workerId
    reservationSha256 := event.reservationSha256
    resultSha256 := event.resultSha256
    workerReplySha256 := event.workerReplySha256
    offeredAtUnixMs :=
      if event.phase = .offered then some event.timestampUnixMs else state.offeredAtUnixMs
    lastHeartbeatUnixMs :=
      if event.phase = .published ∨ event.phase = .running ∨ event.phase = .renewed then
        event.timestampUnixMs
      else state.lastHeartbeatUnixMs
    lastPersistedRenewalUnixMs :=
      if event.phase = .published ∨ event.phase = .renewed then event.timestampUnixMs
      else state.lastPersistedRenewalUnixMs
    terminalAtUnixMs :=
      if event.phase.terminal then some event.timestampUnixMs else state.terminalAtUnixMs }

/-- The state a delegation starts from. -/
def DelegationState.prepared (identity : DelegationIdentity) (budget : DelegationBudget)
    (fencingToken nowUnixMs : UInt64) : DelegationState where
  identity := identity
  budget := budget
  phase := .prepared
  fencingToken := fencingToken
  workerId := none
  reservationSha256 := none
  resultSha256 := none
  workerReplySha256 := none
  offeredAtUnixMs := none
  lastHeartbeatUnixMs := nowUnixMs
  lastPersistedRenewalUnixMs := nowUnixMs
  terminalAtUnixMs := none

namespace Ledger

def replayPrepared (event : DelegationEvent) (ledger : Ledger) :
    Except DurableDelegationError Ledger := do
  refuseIf (ledger.states.contains event.identity.key) .identityAlreadyUsed
  refuseIf (event.fencingToken ≤ ledger.nextFencingToken)
    (replayCorrupt event "prepared fencing tokens are not strictly increasing")
  pure {
    nextFencingToken := event.fencingToken
    states := ledger.states.insert event.identity.key
      (.prepared event.identity event.budget event.fencingToken event.timestampUnixMs) }

/-- `states.get_mut(key).ok_or(UnknownDelegation)`. -/
def find (ledger : Ledger) (key : String × String) : Except DurableDelegationError DelegationState :=
  match ledger.states[key]? with
  | none => .error .unknownDelegation
  | some state => .ok state

def replayTransition (event : DelegationEvent) (ledger : Ledger) :
    Except DurableDelegationError Ledger := do
  let state ← ledger.find event.identity.key
  refuseIf (state.fencingToken ≠ event.fencingToken ∨ state.identity ≠ event.identity ∨
    state.budget ≠ event.budget) .staleFence
  refuseIf (¬validTransition state.phase event.phase) (.invalidTransition state.phase event.phase)
  refuseIf (¬pairCarried event.phase .accepted (state.workerId, state.reservationSha256)
      (event.workerId, event.reservationSha256))
    (replayCorrupt event "worker reservation changed outside the accepted transition")
  refuseIf (¬pairCarried event.phase .resultSealed (state.resultSha256, state.workerReplySha256)
      (event.resultSha256, event.workerReplySha256))
    (replayCorrupt event "sealed result identity changed outside the result-sealed transition")
  pure { ledger with states := ledger.states.insert event.identity.key (state.advance event) }

def replay (event : DelegationEvent) (ledger : Ledger) : Except DurableDelegationError Ledger := do
  validateReplayedEvent event
  if event.phase = .prepared then ledger.replayPrepared event else ledger.replayTransition event

/-- Replaying the records one after another. -/
def replayAll (records : List DelegationEvent) (ledger : Ledger) :
    Except DurableDelegationError Ledger :=
  records.foldlM (fun ledger event => ledger.replay event) ledger

/-- The first delegation that is still open, in the order of the keys. -/
def unresolved (ledger : Ledger) : Option DelegationState :=
  ledger.states.values.find? fun state => !state.phase.terminal

def state (ledger : Ledger) (token : DelegationToken) :
    Except DurableDelegationError DelegationState := do
  let state ← ledger.find token.key
  refuseIf (state.fencingToken ≠ token.fencingToken) .staleFence
  pure state

end Ledger

/-! ## The authority -/

section

variable {J : Type} [DelegationJournal J]

/-- `&mut self` of the authority. -/
abbrev AuthorityM (J : Type) : Type → Type :=
  Fallible (DurableDelegationAuthority J) DurableDelegationError

namespace DurableDelegationAuthority

open Lib.Fallible (read update lift refuseIf each)

/-- The journal a failed recovery leaves behind is returned next to its error. -/
def recover (journal : J) : Except DurableDelegationError (DurableDelegationAuthority J) × J :=
  match DelegationJournal.quarantineReason journal with
  | some reason =>
    (.error (.journal (.corrupt 0 ("journal is quarantined: " ++ reason))), journal)
  | none =>
    match Ledger.empty.replayAll (DelegationJournal.records journal) with
    | .error error => (.error error, (DelegationJournal.quarantine error.display journal).2)
    | .ok ledger =>
      match ledger.unresolved with
      | some state =>
        let reason := "process restart found unresolved delegation " ++ state.identity.jobId ++ "/" ++
          state.identity.taskId ++ " in phase " ++ state.phase.asStr ++
          "; same-identity resume is forbidden"
        (.error (.journal (.corrupt 0 reason)), (DelegationJournal.quarantine reason journal).2)
      | none => (.ok { ledger with journal }, journal)

def append (draft : DelegationEventDraft) : AuthorityM J DelegationEvent := fun authority =>
  match DelegationJournal.append draft authority.journal with
  | (.ok event, journal) => (.ok event, { authority with journal })
  | (.error error, journal) => (.error (.journal error), { authority with journal })

/-- `self.state(token)?`. -/
def state (token : DelegationToken) : AuthorityM J DelegationState := do
  let authority ← read
  lift (authority.toLedger.state token)

/-- `*self.state_mut(token)? = f(..)`. -/
def stateMut (token : DelegationToken) (f : DelegationState → DelegationState) :
    AuthorityM J DelegationState := do
  let current ← state token
  update fun authority =>
    { authority with states := authority.states.insert token.key (f current) }
  pure (f current)

/-- The optional fields a transition brings in. -/
structure TransitionFields where
  workerId : Option String := none
  reservationSha256 : Option String := none
  resultSha256 : Option String := none
  workerReplySha256 : Option String := none
  reason : Option String := none

def transition (token : DelegationToken) (target : DelegationPhase) (nowUnixMs : UInt64)
    (fields : TransitionFields) : AuthorityM J DelegationEvent := do
  let current ← state token
  refuseIf (¬validTransition current.phase target) (.invalidTransition current.phase target)
  let event ← append {
    identity := current.identity
    budget := current.budget
    phase := target
    fencingToken := token.fencingToken
    workerId := fields.workerId.or current.workerId
    reservationSha256 := fields.reservationSha256.or current.reservationSha256
    resultSha256 := fields.resultSha256.or current.resultSha256
    workerReplySha256 := fields.workerReplySha256.or current.workerReplySha256
    timestampUnixMs := nowUnixMs
    reason := fields.reason }
  let _ ← stateMut token fun state =>
    { state with
      phase := target
      terminalAtUnixMs := if target.terminal then some nowUnixMs else state.terminalAtUnixMs }
  pure event

def ensureLive (token : DelegationToken) (nowUnixMs : UInt64) : AuthorityM J Unit := do
  let current ← state token
  refuseIf (saturatingSub nowUnixMs current.lastHeartbeatUnixMs > activeLeaseExpiryMs) .leaseExpired

/-- `value.ok_or(error)`. -/
def okOr {α : Type} (value : Option α) (error : DurableDelegationError) :
    Except DurableDelegationError α :=
  match value with
  | some a => .ok a
  | none => .error error

def prepare (identity : DelegationIdentity) (budget : DelegationBudget) (nowUnixMs : UInt64) :
    AuthorityM J DelegationToken := do
  lift identity.validate
  let authority ← read
  refuseIf (authority.states.contains identity.key) .identityAlreadyUsed
  let fencingToken ← lift (okOr (checkedAdd authority.nextFencingToken 1) .fencingTokenExhausted)
  let event ← append {
    identity, budget, fencingToken
    phase := .prepared
    workerId := none
    reservationSha256 := none
    resultSha256 := none
    workerReplySha256 := none
    timestampUnixMs := nowUnixMs
    reason := none }
  update fun authority =>
    { authority with
      nextFencingToken := fencingToken
      states := authority.states.insert identity.key
        (.prepared event.identity budget fencingToken nowUnixMs) }
  pure ⟨identity.jobId, identity.taskId, fencingToken⟩

def offered (token : DelegationToken) (nowUnixMs : UInt64) : AuthorityM J Unit := do
  let _ ← transition token .offered nowUnixMs {}
  let _ ← stateMut token fun state => { state with offeredAtUnixMs := some nowUnixMs }

def accepted (token : DelegationToken) (workerId reservationSha256 : String) (nowUnixMs : UInt64) :
    AuthorityM J Unit := do
  refuseIf (¬isWorkerId workerId ∨ ¬isSha256 reservationSha256) .invalidIdentity
  let current ← state token
  let offeredAt ← lift
    (okOr current.offeredAtUnixMs (.invalidTransition current.phase .accepted))
  refuseIf (saturatingSub nowUnixMs offeredAt > offerAcceptTimeoutMs) .offerExpired
  let _ ← transition token .accepted nowUnixMs
    { workerId := some workerId, reservationSha256 := some reservationSha256 }
  let _ ← stateMut token fun state =>
    { state with workerId := some workerId, reservationSha256 := some reservationSha256 }

def publish (token : DelegationToken) (nowUnixMs : UInt64) :
    AuthorityM J ExecutableDelegationPermit := do
  let event ← transition token .published nowUnixMs {}
  let state ← stateMut token fun state =>
    { state with lastHeartbeatUnixMs := nowUnixMs, lastPersistedRenewalUnixMs := nowUnixMs }
  let workerId ← lift (okOr state.workerId .invalidIdentity)
  let expiresAtUnixMs ← lift (okOr (checkedAdd nowUnixMs activeLeaseExpiryMs) .sequenceExhausted)
  pure {
    jobId := state.identity.jobId
    taskId := state.identity.taskId
    workerId
    payloadSha256 := state.identity.payloadSha256
    requestSha256 := state.identity.requestSha256
    fencingToken := state.fencingToken
    publicationSequence := event.sequence
    publicationSha256 := event.eventSha256
    expiresAtUnixMs }

def running (token : DelegationToken) (nowUnixMs : UInt64) : AuthorityM J Unit := do
  ensureLive token nowUnixMs
  let _ ← transition token .running nowUnixMs {}
  let _ ← stateMut token fun state => { state with lastHeartbeatUnixMs := nowUnixMs }

/-- The branch of `heartbeat` that writes a renewal. -/
def persistRenewal (token : DelegationToken) (nowUnixMs : UInt64) : AuthorityM J Unit := do
  let _ ← transition token .renewed nowUnixMs {}
  let _ ← stateMut token fun state => { state with lastPersistedRenewalUnixMs := nowUnixMs }

def heartbeat (token : DelegationToken) (nowUnixMs : UInt64) : AuthorityM J Bool := do
  ensureLive token nowUnixMs
  let current ← state token
  let persist := decide (saturatingSub nowUnixMs current.lastPersistedRenewalUnixMs ≥
    persistedRenewalIntervalMs)
  let _ ← stateMut token fun state => { state with lastHeartbeatUnixMs := nowUnixMs }
  if persist then persistRenewal token nowUnixMs else pure ()
  pure persist

/-- Sealing a result in a phase that has none yet. -/
def sealResult (token : DelegationToken) (resultSha256 workerReplySha256 : String)
    (nowUnixMs : UInt64) : AuthorityM J Unit := do
  let _ ← transition token .resultSealed nowUnixMs
    { resultSha256 := some resultSha256, workerReplySha256 := some workerReplySha256 }
  let _ ← stateMut token fun state =>
    { state with resultSha256 := some resultSha256, workerReplySha256 := some workerReplySha256 }

def resultSealed (token : DelegationToken) (resultSha256 workerReplySha256 : String)
    (nowUnixMs : UInt64) : AuthorityM J Unit := do
  ensureLive token nowUnixMs
  refuseIf (¬isSha256 resultSha256 ∨ ¬isSha256 workerReplySha256) .invalidIdentity
  let current ← state token
  if current.phase = .resultSealed ∨ current.phase = .resultApplied ∨ current.phase = .completed then
    refuseIf (current.resultSha256 ≠ some resultSha256 ∨
      current.workerReplySha256 ≠ some workerReplySha256) .resultDigestMismatch
  else sealResult token resultSha256 workerReplySha256 nowUnixMs

/-- A transition that changes nothing but the phase. -/
def close (token : DelegationToken) (target : DelegationPhase) (nowUnixMs : UInt64)
    (reason : Option String) : AuthorityM J Unit := do
  let _ ← transition token target nowUnixMs { reason }

def resultApplied (token : DelegationToken) (nowUnixMs : UInt64) : AuthorityM J Unit := do
  let current ← state token
  if current.phase = .resultApplied ∨ current.phase = .completed then pure ()
  else close token .resultApplied nowUnixMs none

def complete (token : DelegationToken) (nowUnixMs : UInt64) : AuthorityM J Unit := do
  let current ← state token
  if current.phase = .completed then pure () else close token .completed nowUnixMs none

def failClosed (token : DelegationToken) (reason : String) (nowUnixMs : UInt64) :
    AuthorityM J Unit :=
  close token .failedClosed nowUnixMs (some reason)

def revoke (token : DelegationToken) (reason : String) (nowUnixMs : UInt64) : AuthorityM J Unit :=
  close token .revoked nowUnixMs (some reason)

def cancel (token : DelegationToken) (nowUnixMs : UInt64) : AuthorityM J Unit :=
  close token .cancelled nowUnixMs none

/-- Whether the heartbeat of a published delegation is too old. -/
def isStale (nowUnixMs : UInt64) (state : DelegationState) : Bool :=
  decide (state.phase = .published ∨ state.phase = .running ∨ state.phase = .renewed) &&
    decide (saturatingSub nowUnixMs state.lastHeartbeatUnixMs > activeLeaseExpiryMs)

def expireStale (nowUnixMs : UInt64) : AuthorityM J Nat := do
  let authority ← read
  let stale := (authority.states.values.filter (isStale nowUnixMs)).map fun state =>
    (⟨state.identity.jobId, state.identity.taskId, state.fencingToken⟩ : DelegationToken)
  each (fun token => close token .expired nowUnixMs (some "heartbeat lease expired")) stale
  pure stale.length

/-- Whether a state keeps the journal from being reset. -/
def retained (nowUnixMs : UInt64) (state : DelegationState) : Bool :=
  !state.phase.terminal ||
    (match state.terminalAtUnixMs with
      | none => true
      | some ended => decide (saturatingSub nowUnixMs ended ≤ terminalTombstoneRetentionMs))

/-- `self.journal.reset_if_head(..)?`. -/
def resetJournal (expectedHead : String) : AuthorityM J Unit := fun authority =>
  match DelegationJournal.resetIfHead expectedHead authority.journal with
  | (.ok (), journal) => (.ok (), { authority with journal })
  | (.error error, journal) => (.error (.journal error), { authority with journal })

/-- The reset itself, once every state has expired. -/
def compact : AuthorityM J Bool := do
  let authority ← read
  let expectedHead ← lift (okOr
    ((DelegationJournal.records authority.journal).getLast?.map (·.eventSha256))
    (.journal (.corrupt 0 "terminal delegation states have no journal head")))
  resetJournal expectedHead
  update fun authority => { authority with states := ∅, nextFencingToken := 0 }
  pure true

def compactExpiredTerminalTombstones (nowUnixMs : UInt64) : AuthorityM J Bool := do
  let authority ← read
  if authority.states.isEmpty || authority.states.values.any (retained nowUnixMs) then pure false
  else compact

end DurableDelegationAuthority

/-! ## Runs -/

/-- A call on the authority. The budget of `prepare` is what `DelegationBudget::new` makes of the two
numbers. -/
inductive Call where
  | prepare (identity : DelegationIdentity) (computeUnits : UInt32) (memoryBytes : UInt64)
      (nowUnixMs : UInt64)
  | offered (token : DelegationToken) (nowUnixMs : UInt64)
  | accepted (token : DelegationToken) (workerId reservationSha256 : String) (nowUnixMs : UInt64)
  | publish (token : DelegationToken) (nowUnixMs : UInt64)
  | running (token : DelegationToken) (nowUnixMs : UInt64)
  | heartbeat (token : DelegationToken) (nowUnixMs : UInt64)
  | resultSealed (token : DelegationToken) (resultSha256 workerReplySha256 : String)
      (nowUnixMs : UInt64)
  | resultApplied (token : DelegationToken) (nowUnixMs : UInt64)
  | complete (token : DelegationToken) (nowUnixMs : UInt64)
  | failClosed (token : DelegationToken) (reason : String) (nowUnixMs : UInt64)
  | revoke (token : DelegationToken) (reason : String) (nowUnixMs : UInt64)
  | cancel (token : DelegationToken) (nowUnixMs : UInt64)
  | expireStale (nowUnixMs : UInt64)
  | compactExpiredTerminalTombstones (nowUnixMs : UInt64)

namespace DurableDelegationAuthority

/-- The authority after a call, whatever the call returned. -/
def afterCall (authority : DurableDelegationAuthority J) : Call → DurableDelegationAuthority J
  | .prepare identity computeUnits memoryBytes now =>
    match DelegationBudget.new computeUnits memoryBytes with
    | some budget => (prepare identity budget now authority).2
    | none => authority
  | .offered token now => (offered token now authority).2
  | .accepted token workerId reservation now => (accepted token workerId reservation now authority).2
  | .publish token now => (publish token now authority).2
  | .running token now => (running token now authority).2
  | .heartbeat token now => (heartbeat token now authority).2
  | .resultSealed token result reply now => (resultSealed token result reply now authority).2
  | .resultApplied token now => (resultApplied token now authority).2
  | .complete token now => (complete token now authority).2
  | .failClosed token reason now => (failClosed token reason now authority).2
  | .revoke token reason now => (revoke token reason now authority).2
  | .cancel token now => (cancel token now authority).2
  | .expireStale now => (expireStale now authority).2
  | .compactExpiredTerminalTombstones now => (compactExpiredTerminalTombstones now authority).2

def afterCalls (authority : DurableDelegationAuthority J) (calls : List Call) :
    DurableDelegationAuthority J :=
  calls.foldl afterCall authority

end DurableDelegationAuthority
end
end Clearra.Delegation
