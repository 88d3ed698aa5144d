import Clearra.Proof.Delegation.Replay

/-!
# The live authority is the replay of its journal

Between a transition's append and the last field it writes, the live state is behind the journal;
`Pending` says exactly how far. Every operation goes from agreement to agreement, through at most one
pending transition, and a refused append or reset leaves the agreement it found. The one field left
out is the heartbeat, which a beat that is not persisted moves in the live state only.
-/

namespace Clearra.Proof.Delegation

open Clearra.Delegation DelegationJournal
open Clearra.Lib.Fallible

/-- A journal whose calls either do what they are for or leave the records as they were. -/
class LawfulDelegationJournal (J : Type) [Sha256] [DelegationJournal J] : Prop where
  append_ok : ∀ {draft : DelegationEventDraft} {journal after : J} {event : DelegationEvent},
    append draft journal = (.ok event, after) →
      buildEvent (records journal) draft = .ok event ∧
      records after = records journal ++ [event]
  append_error : ∀ {draft : DelegationEventDraft} {journal after : J}
    {error : DelegationJournalError}, append draft journal = (.error error, after) →
      records after = records journal
  reset_ok : ∀ {head : String} {journal after : J},
    resetIfHead head journal = (.ok (), after) →
      records after = []
  reset_error : ∀ {head : String} {journal after : J} {error : DelegationJournalError},
    resetIfHead head journal = (.error error, after) →
      records after = records journal

theorem buildEvent_draft [Sha256] {records : List DelegationEvent} {draft : DelegationEventDraft}
    {event : DelegationEvent} (h : buildEvent records draft = .ok event) :
    event.toDelegationEventDraft = draft := by
  obtain ⟨sequence, -, h⟩ := Lib.bind_eq_ok.1 h
  cases h
  rfl

instance [Sha256] : LawfulDelegationJournal MemoryDelegationJournal where
  append_ok := by
    intro draft journal after event h
    simp only [append, MemoryDelegationJournal.append] at h
    split at h
    · cases h
    · split at h
      · cases h
      · split at h
        · cases h
        next built hbuilt =>
          cases h
          exact ⟨hbuilt, rfl⟩
  append_error := by
    intro draft journal after error h
    simp only [append, MemoryDelegationJournal.append] at h
    split at h
    · cases h; rfl
    · split at h
      · cases h; rfl
      · split at h
        · cases h; rfl
        · cases h
  reset_ok := by
    intro head journal after h
    simp only [resetIfHead, MemoryDelegationJournal.resetIfHead] at h
    split at h
    · cases h
    · split at h
      · cases h
      · split at h
        · cases h
        · cases h; rfl
  reset_error := by
    intro head journal after error h
    simp only [resetIfHead, MemoryDelegationJournal.resetIfHead] at h
    split at h
    · cases h; rfl
    · split at h
      · cases h; rfl
      · split at h
        · cases h; rfl
        · cases h

/-! ## Agreement -/

/-- A state without its heartbeat. -/
def durable (state : DelegationState) : DelegationState := { state with lastHeartbeatUnixMs := 0 }

structure Agrees (live replayed : Ledger) : Prop where
  nextFencingToken : live.nextFencingToken = replayed.nextFencingToken
  states : ∀ key : String × String, live.states[key]?.map durable = replayed.states[key]?.map durable

section

variable {state other : DelegationState}

theorem draftTo_congr (h : durable state = durable other)
    {target : DelegationPhase} {now : UInt64} {fields : DurableDelegationAuthority.TransitionFields} :
    draftTo state target now fields = draftTo other target now fields := by
  cases state
  cases other
  simp only [durable, DelegationState.mk.injEq] at h
  simp [draftTo, h]

theorem durable_advance_congr (h : durable state = durable other)
    {event : DelegationEvent} : durable (state.advance event) = durable (other.advance event) := by
  cases state
  cases other
  simp only [durable, DelegationState.mk.injEq] at h
  simp [durable, DelegationState.advance, h]

theorem Agrees.exists_replayed {live replayed : Ledger} (h : Agrees live replayed)
    {key : String × String} (hs : live.states[key]? = some state) :
    ∃ other, replayed.states[key]? = some other ∧ durable state = durable other := by
  have hkey := h.states key
  rw [hs] at hkey
  cases hr : replayed.states[key]? with
  | none => simp [hr] at hkey
  | some other =>
    rw [hr] at hkey
    exact ⟨other, rfl, Option.some.inj hkey⟩

theorem Agrees.insert {live replayed : Ledger} (h : Agrees live replayed) {key : String × String}
    (hd : durable state = durable other) {next : UInt64} :
    Agrees ⟨live.states.insert key state, next⟩ ⟨replayed.states.insert key other, next⟩ := by
  refine ⟨rfl, ?_⟩
  intro key'
  simp only [getElem?_insert_key]
  split
  · simp [hd]
  · exact h.states key'

end

/-! ## Steps -/

section Steps

open Clearra.Delegation.DurableDelegationAuthority

variable {J : Type} {P E : DurableDelegationAuthority J → Prop} {token : DelegationToken}

/-- The token names a state and carries its fence. -/
def Found (token : DelegationToken) (state : DelegationState)
    (authority : DurableDelegationAuthority J) : Prop :=
  authority.states[token.key]? = some state ∧ state.fencingToken = token.fencingToken

theorem ledger_state_eq_ok {ledger : Ledger} {state : DelegationState} :
    ledger.state token = .ok state ↔
      ledger.states[token.key]? = some state ∧ state.fencingToken = token.fencingToken := by
  simp only [Ledger.state, Lib.bind_eq_ok, find_eq_ok, Lib.refuseIf_eq_ok, not_not, ne_eq, pure,
    Except.pure, Except.ok.injEq]
  constructor
  · rintro ⟨found, hfound, _, htoken, rfl⟩
    exact ⟨hfound, htoken⟩
  · rintro ⟨hfound, htoken⟩
    exact ⟨state, hfound, (), htoken, rfl⟩

theorem state_step (herr : ∀ a, P a → E a) :
    Triple P (state token) (fun s a => P a ∧ Found token s a) E := by
  refine .read_state ?_
  intro authority hp
  refine .lift_step ?_ ?_
  · rintro s _ hs rfl
    exact ⟨hp, ledger_state_eq_ok.1 hs⟩
  · rintro _ rfl
    exact herr _ hp

theorem state_found (h : ∀ a, P a → ∃ s, Found token s a) :
    Triple P (state token) (fun s a => P a ∧ Found token s a) E := by
  intro authority hp
  obtain ⟨s, hs⟩ := h authority hp
  have hrun : state token authority = (.ok s, authority) := by
    show (authority.toLedger.state token, authority) = _
    rw [ledger_state_eq_ok.2 hs]
  rw [hrun]
  exact ⟨hp, hs⟩

theorem stateMut_step {f : DelegationState → DelegationState}
    (hstate : Triple P (state token) (fun s a => P a ∧ Found token s a) E) :
    Triple P (stateMut token f)
      (fun s a => ∃ before current, P before ∧ Found token current before ∧ s = f current ∧
        a = { before with states := before.states.insert token.key (f current) }) E := by
  refine .seq hstate ?_
  intro current
  refine .seq Triple.update_state fun _ => .ret ?_
  rintro a ⟨before, ⟨hp, hfound⟩, rfl⟩
  exact ⟨before, current, hp, hfound, rfl, rfl⟩

end Steps

section

variable {J : Type} [DelegationJournal J]

/-- The records replay to what the authority holds. -/
def Replayable (authority : DurableDelegationAuthority J) : Prop :=
  ∃ ledger, Ledger.empty.replayAll (records authority.journal) = .ok ledger ∧
    Agrees authority.toLedger ledger

theorem Replayable.congr {authority after : DurableDelegationAuthority J} (h : Replayable authority)
    (hl : after.toLedger = authority.toLedger)
    (hr : records after.journal = records authority.journal) :
    Replayable after := by
  obtain ⟨ledger, hreplay, hagrees⟩ := h
  exact ⟨ledger, hr ▸ hreplay, hl ▸ hagrees⟩

/-! ## A transition -/

/-- A state after `transition` and before the operation's own fields. -/
def settle (state : DelegationState) (target : DelegationPhase) (now : UInt64) : DelegationState :=
  { state with
    phase := target
    terminalAtUnixMs := if target.terminal then some now else state.terminalAtUnixMs }

/-- The journal holds the event of a transition of `state`; the live state under the token still lacks
the fields the operation writes next. -/
structure Pending (token : DelegationToken) (target : DelegationPhase) (now : UInt64)
    (fields : DurableDelegationAuthority.TransitionFields) (event : DelegationEvent)
    (state : DelegationState) (authority : DurableDelegationAuthority J) : Prop where
  drafted : event.toDelegationEventDraft = draftTo state target now fields
  recorded : event ∈ records authority.journal
  current : Found token (settle state target now) authority
  replayed : ∃ live ledger other, Agrees live ledger ∧
    authority.nextFencingToken = live.nextFencingToken ∧
    (∀ key, key ≠ token.key → authority.states[key]? = live.states[key]?) ∧
    durable other = durable (state.advance event) ∧
    Ledger.empty.replayAll (records authority.journal) =
      .ok ⟨ledger.states.insert token.key other, ledger.nextFencingToken⟩

section Pending

variable {token : DelegationToken} {target : DelegationPhase} {now : UInt64}
  {fields : DurableDelegationAuthority.TransitionFields} {event : DelegationEvent}
  {E : DurableDelegationAuthority J → Prop}

/-- Once the state under the token is what the event leaves, live and replayed agree again. -/
theorem Pending.replayable {state written : DelegationState}
    {authority after : DurableDelegationAuthority J}
    (h : Pending token target now fields event state authority) (hrecords : records after.journal =
      records authority.journal) (hnext : after.nextFencingToken = authority.nextFencingToken)
    (hwritten : after.states[token.key]? = some written)
    (hframe : ∀ key, key ≠ token.key → after.states[key]? = authority.states[key]?)
    (hd : durable written = durable (state.advance event)) : Replayable after := by
  obtain ⟨live, ledger, other, hagrees, hlive, hrest, hother, hreplay⟩ := h.replayed
  refine ⟨⟨ledger.states.insert token.key other, ledger.nextFencingToken⟩, hrecords ▸ hreplay,
    (hnext.trans hlive).trans hagrees.nextFencingToken, ?_⟩
  intro key
  simp only [getElem?_insert_key]
  split
  case isTrue heq =>
    rw [← heq, hwritten]
    simp [hd, hother]
  case isFalse hne =>
    have hne' : key ≠ token.key := fun heq => hne heq.symm
    rw [hframe key hne', hrest key hne']
    exact hagrees.states key

/-- The fields an operation writes after its transition. -/
theorem finish_step {f : DelegationState → DelegationState}
    (hf : ∀ state, event.toDelegationEventDraft = draftTo state target now fields →
      durable (f (settle state target now)) = durable (state.advance event)) :
    Triple (fun a => ∃ state, Pending token target now fields event state a)
      (DurableDelegationAuthority.stateMut token f)
      (fun s a => Replayable a ∧ event ∈ records a.journal ∧
        ∃ state, event.toDelegationEventDraft = draftTo state target now fields ∧
          s = f (settle state target now)) E := by
  refine .weaken (stateMut_step (state_found ?_)) (fun _ h => h) ?_
  · rintro a ⟨state, h⟩
    exact ⟨_, h.current⟩
  · rintro s a ⟨before, current, ⟨state, h⟩, hfound, rfl, rfl⟩
    obtain rfl : current = settle state target now :=
      Option.some.inj (hfound.1.symm.trans h.current.1)
    refine ⟨h.replayable rfl rfl ?_ ?_ (hf state h.drafted), h.recorded, state, h.drafted, rfl⟩
    · simp
    · intro key hne
      simp [Ne.symm hne]

/-- What the journal replays to once the event of an allowed transition is in it. -/
theorem replayAll_transition {authority : DurableDelegationAuthority J} {state : DelegationState}
    (hr : Replayable authority) (hfound : Found token state authority)
    (hv : validTransition state.phase target = true) (hb : Brings target fields)
    (hevent : event.toDelegationEventDraft = draftTo state target now fields) :
    ∃ ledger other, Agrees authority.toLedger ledger ∧
      durable other = durable (state.advance event) ∧
      Ledger.empty.replayAll (records authority.journal ++ [event]) =
        .ok ⟨ledger.states.insert token.key other, ledger.nextFencingToken⟩ := by
  obtain ⟨ledger, hreplay, hagrees⟩ := hr
  obtain ⟨rebuilt, hrebuilt, hdurable⟩ := hagrees.exists_replayed hfound.1
  obtain ⟨hkey, hsound⟩ := ledgerSound_replayAll ledgerSound_empty hreplay _ _ hrebuilt
  have hphase : (durable state).phase = (durable rebuilt).phase :=
    congrArg DelegationState.phase hdurable
  refine ⟨ledger, rebuilt.advance event, hagrees, (durable_advance_congr hdurable).symm, ?_⟩
  rw [replayAll_append hreplay, ← hkey]
  exact replay_draftTo (hkey ▸ hrebuilt) hsound
    (show validTransition (durable rebuilt).phase target = true from hphase ▸ hv) hb
    (hevent.trans (draftTo_congr hdurable))

variable [Sha256] [LawfulDelegationJournal J]

theorem append_step {P : DurableDelegationAuthority J → Prop} {draft : DelegationEventDraft}
    (hp : ∀ a, P a → Replayable a) :
    Triple P (DurableDelegationAuthority.append draft)
      (fun event a => ∃ before, P before ∧ event.toDelegationEventDraft = draft ∧
        records a.journal =
          records before.journal ++ [event] ∧
        a.toLedger = before.toLedger) Replayable := by
  intro before hbefore
  unfold DurableDelegationAuthority.append
  cases hr : append draft before.journal with
  | mk result journal =>
    cases result with
    | ok event =>
      obtain ⟨hbuilt, hrecords⟩ := LawfulDelegationJournal.append_ok hr
      exact ⟨before, hbefore, buildEvent_draft hbuilt, hrecords, rfl⟩
    | error error =>
      exact (hbefore |> hp before).congr rfl (LawfulDelegationJournal.append_error hr)

theorem transition_step (hb : Brings target fields) :
    Triple (Replayable (J := J)) (DurableDelegationAuthority.transition token target now fields)
      (fun event a => ∃ state, Pending token target now fields event state a) Replayable := by
  refine .seq (state_step fun _ h => h) ?_
  intro current
  refine .refuseIf_seq (fun _ h => h.1) ?_
  intro hv
  refine .seq (append_step fun _ h => h.1) ?_
  intro event
  refine .seq (stateMut_step (state_found ?_)) fun _ => .ret ?_
  · rintro a ⟨before, ⟨-, hfound⟩, -, -, hledger⟩
    have hstates : a.states = before.states := congrArg Ledger.states hledger
    exact ⟨current, hstates ▸ hfound.1, hfound.2⟩
  · rintro _ ⟨middle, found, ⟨before, ⟨hreplayable, hfound⟩, hevent, hrecords, hledger⟩, hcurrent, -,
      rfl⟩
    have hstates : middle.states = before.states := congrArg Ledger.states hledger
    obtain rfl : found = current :=
      Option.some.inj (hcurrent.1.symm.trans (hstates ▸ hfound.1))
    have hdraft : event.toDelegationEventDraft = draftTo found target now fields := by
      rw [hevent, draftTo, hfound.2]
    obtain ⟨ledger, other, hagrees, hother, hreplay⟩ :=
      replayAll_transition hreplayable hfound (not_not.1 hv) hb hdraft
    refine ⟨found, hdraft, ?_, ⟨?_, hfound.2⟩, before.toLedger, ledger, other, hagrees, ?_, ?_, hother,
      hrecords ▸ hreplay⟩
    · simp [hrecords]
    · simp [settle]
    · show middle.nextFencingToken = before.nextFencingToken
      exact congrArg Ledger.nextFencingToken hledger
    · intro key hne
      simp [Ne.symm hne, hstates]

end Pending

/-! ## The operations -/

/-- An operation that takes every agreement to an agreement, returned or refused. -/
def Keeps {α : Type} (operation : AuthorityM J α) : Prop :=
  Triple Replayable operation (fun _ a => Replayable a) Replayable

section Operations

open Clearra.Delegation.DurableDelegationAuthority

variable {token : DelegationToken} {now : UInt64}

theorem state_keeps : Keeps (J := J) (state token) :=
  Triple.weaken (state_step fun _ h => h) (fun _ h => h) fun _ _ h => h.1

theorem ensureLive_keeps : Keeps (J := J) (ensureLive token now) :=
  Triple.seq state_keeps fun _ => .lift_step (fun _ _ _ h => h) fun _ h => h

theorem lt_of_checkedAdd {next token : UInt64} (h : checkedAdd next 1 = some token) :
    next < token := by
  simp only [checkedAdd, Option.ite_none_right_eq_some, Option.some.injEq] at h
  obtain ⟨hbound, rfl⟩ := h
  rw [UInt64.lt_iff_toNat_lt, UInt64.toNat_ofNat_of_lt' hbound]
  omega

/-- Moving a heartbeat changes nothing that is durable. -/
theorem heartbeat_field_keeps :
    Keeps (J := J) (stateMut token fun state => { state with lastHeartbeatUnixMs := now }) := by
  refine .weaken (stateMut_step (state_step fun _ h => h)) (fun _ h => h) ?_
  rintro _ _ ⟨before, current, ⟨ledger, hreplay, hagrees⟩, hfound, -, rfl⟩
  refine ⟨ledger, hreplay, hagrees.nextFencingToken, ?_⟩
  intro key
  simp only [getElem?_insert_key]
  split
  case isTrue heq =>
    rw [← heq, ← hagrees.states token.key, hfound.1]
    rfl
  case isFalse => exact hagrees.states key

variable [Sha256] [LawfulDelegationJournal J]

theorem finish_keeps {α : Type} {target : DelegationPhase}
    {fields : DurableDelegationAuthority.TransitionFields} {f : DelegationState → DelegationState}
    (hb : Brings target fields)
    (hf : ∀ (event : DelegationEvent) state, durable (f (settle state target now)) =
      durable (state.advance { event with
        toDelegationEventDraft := draftTo state target now fields })) {a : α} :
    Keeps (J := J) (do
      let _ ← transition token target now fields
      let _ ← stateMut token f
      pure a) :=
  Triple.seq (transition_step hb) fun event =>
    Triple.seq (finish_step fun state hevent => (hf event state).trans (by rw [← hevent])) fun _ =>
      Triple.ret fun _ h => h.1

theorem offered_keeps : Keeps (J := J) (offered token now) :=
  finish_keeps (brings_reason .offered (by decide) (by decide)) fun _ _ => rfl

theorem accepted_keeps {workerId reservation : String} :
    Keeps (J := J) (accepted token workerId reservation now) := by
  refine .refuseIf_seq (fun _ h => h) fun hvalid => ?_
  refine .seq state_keeps fun current => ?_
  refine .lift_seq (fun _ h => h) fun offeredAt _ => ?_
  refine .refuseIf_seq (fun _ h => h) fun _ => ?_
  rw [not_or, not_not, not_not] at hvalid
  exact finish_keeps (brings_worker hvalid.1) fun _ _ => rfl

/-- What a permit says, and the event it stands on says too. -/
structure Publishes (event : DelegationEvent) (permit : ExecutableDelegationPermit) : Prop where
  phase : event.phase = .published
  jobId : event.identity.jobId = permit.jobId
  taskId : event.identity.taskId = permit.taskId
  payloadSha256 : event.identity.payloadSha256 = permit.payloadSha256
  requestSha256 : event.identity.requestSha256 = permit.requestSha256
  workerId : event.workerId = some permit.workerId
  fencingToken : event.fencingToken = permit.fencingToken
  sequence : event.sequence = permit.publicationSequence
  eventSha256 : event.eventSha256 = permit.publicationSha256

theorem publish_step :
    Triple (Replayable (J := J)) (publish token now)
      (fun permit a => Replayable a ∧
        ∃ event ∈ records a.journal, Publishes event permit) Replayable := by
  refine .seq (transition_step (brings_reason .published (by decide) (by decide))) ?_
  intro event
  refine .seq (finish_step ?_) ?_
  · intro state hevent
    simp [durable, settle, DelegationState.advance, hevent, draftTo, DelegationPhase.terminal]
  · intro written
    refine .lift_seq (fun _ h => h.1) fun workerId hworker => ?_
    generalize checkedAdd now activeLeaseExpiryMs = expires
    refine .lift_seq (fun _ h => h.1) fun expiresAt _ => .ret ?_
    rintro a ⟨hreplayable, hrecorded, state, hevent, rfl⟩
    have hid : state.workerId = some workerId := by
      cases hw : state.workerId <;> simp [hw, settle, okOr] at hworker
      rw [hworker]
    refine ⟨hreplayable, event, hrecorded, ?_⟩
    constructor <;> simp [hevent, draftTo, settle, hid]

theorem publish_keeps : Keeps (J := J) (publish token now) :=
  Triple.weaken publish_step (fun _ h => h) fun _ _ h => h.1

theorem running_keeps : Keeps (J := J) (running token now) := by
  refine .seq ensureLive_keeps fun _ => ?_
  exact finish_keeps (brings_reason .running (by decide) (by decide)) fun _ _ => rfl

theorem persistRenewal_keeps : Keeps (J := J) (persistRenewal token now) :=
  finish_keeps (brings_reason .renewed (by decide) (by decide)) fun _ _ => rfl

theorem heartbeat_keeps : Keeps (J := J) (heartbeat token now) := by
  refine .seq ensureLive_keeps fun _ => ?_
  refine .seq state_keeps fun current => ?_
  refine .seq heartbeat_field_keeps fun _ => ?_
  dsimp only
  split
  · exact .seq persistRenewal_keeps fun _ => .ret fun _ h => h
  · exact .ret fun _ h => h

theorem sealResult_keeps {result reply : String} :
    Keeps (J := J) (sealResult token result reply now) :=
  finish_keeps brings_result fun _ _ => rfl

theorem resultSealed_keeps {result reply : String} :
    Keeps (J := J) (resultSealed token result reply now) := by
  refine .seq ensureLive_keeps fun _ => ?_
  refine .refuseIf_seq (fun _ h => h) fun _ => ?_
  refine .seq state_keeps fun current => ?_
  split
  · exact .lift_step (fun _ _ _ h => h) fun _ h => h
  · exact sealResult_keeps

/-- A transition after which nothing else is written. -/
theorem close_keeps (target : DelegationPhase) {reason : Option String}
    (h : target ∉ [.offered, .accepted, .published, .renewed, .resultSealed]) :
    Keeps (J := J) (close token target now reason) := by
  simp only [List.mem_cons, List.not_mem_nil, or_false, not_or] at h
  obtain ⟨hoffered, haccepted, hpublished, hrenewed, hsealed⟩ := h
  refine .seq (transition_step (brings_reason target haccepted hsealed)) fun event => ?_
  refine .ret ?_
  rintro a ⟨state, hpending⟩
  refine hpending.replayable rfl rfl hpending.current.1 (fun _ _ => rfl) ?_
  simp [durable, settle, DelegationState.advance, hpending.drafted, draftTo, hoffered, hpublished,
    hrenewed]

theorem resultApplied_keeps : Keeps (J := J) (resultApplied token now) := by
  refine .seq state_keeps fun current => ?_
  split
  · exact .ret fun _ h => h
  · exact close_keeps .resultApplied (by decide)

theorem complete_keeps : Keeps (J := J) (complete token now) := by
  refine .seq state_keeps fun current => ?_
  split
  · exact .ret fun _ h => h
  · exact close_keeps .completed (by decide)

theorem expireStale_keeps : Keeps (J := J) (expireStale now) := by
  refine .read_state fun authority hauthority => ?_
  refine .weaken (P := Replayable) ?_ (fun _ h => h ▸ hauthority) fun _ _ h => h
  exact .seq (.loop _ fun _ _ => close_keeps .expired (by decide)) fun _ =>
    Triple.ret fun _ h => h

theorem prepare_keeps {identity : DelegationIdentity} {budget : DelegationBudget}
    (hbudget : budget.computeUnits ≠ 0) : Keeps (J := J) (prepare identity budget now) := by
  refine .lift_seq (fun _ h => h) fun _ hidentity => ?_
  refine .read_state fun authority hauthority => ?_
  refine .refuseIf_seq (fun _ h => h ▸ hauthority) fun hunused => ?_
  refine .lift_seq (fun _ h => h ▸ hauthority) fun fencingToken htoken => ?_
  refine .seq (append_step fun _ h => h ▸ hauthority) fun event => ?_
  refine .seq Triple.update_state fun _ => .ret ?_
  rintro _ ⟨a, ⟨authority, rfl, hevent, hrecords, hledger⟩, rfl⟩
  obtain ⟨ledger, hreplay, hagrees⟩ := hauthority
  have hnext : checkedAdd authority.nextFencingToken 1 = some fencingToken := by
    cases hc : checkedAdd authority.nextFencingToken 1 with
    | none => rw [hc] at htoken; cases htoken
    | some value => rw [hc] at htoken; cases htoken; rfl
  have hlt := lt_of_checkedAdd hnext
  have hkey : ledger.states[identity.key]? = none := by
    have hstates := hagrees.states identity.key
    rw [Std.TreeMap.contains_eq_isSome_getElem?, Bool.not_eq_true, Option.isSome_eq_false_iff,
      Option.isNone_iff_eq_none] at hunused
    rw [hunused] at hstates
    exact Option.map_eq_none_iff.1 hstates.symm
  have hsound : Sound event.toDelegationEventDraft := by
    rw [hevent]
    refine ⟨hidentity, hbudget, ?_, rfl, nofun, rfl, fun _ => ⟨rfl, rfl⟩⟩
    rintro rfl
    exact absurd hlt (UInt64.not_lt_zero)
  refine ⟨⟨ledger.states.insert identity.key (.prepared identity budget fencingToken now),
    fencingToken⟩, ?_, ?_⟩
  · rw [hrecords, replayAll_append hreplay]
    have hrun := @replay_prepared event ledger (by rw [hevent]) hsound (by rw [hevent]; exact hkey)
      (by rw [hevent, ← hagrees.nextFencingToken]; exact hlt)
    rw [hrun, hevent]
  · have hstates : a.states = authority.states := congrArg Ledger.states hledger
    have hid : event.identity = identity := by rw [hevent]
    rw [hid, hstates]
    exact hagrees.insert rfl

theorem resetJournal_step {head : String} :
    Triple (Replayable (J := J)) (resetJournal head)
      (fun _ a => records a.journal = []) Replayable := by
  intro before hbefore
  unfold resetJournal
  cases hr : resetIfHead head before.journal with
  | mk result journal =>
    cases result with
    | ok _ => exact LawfulDelegationJournal.reset_ok hr
    | error error => exact hbefore.congr rfl (LawfulDelegationJournal.reset_error hr)

theorem compact_keeps : Keeps (J := J) compact := by
  refine .read_state fun authority hauthority => ?_
  refine .lift_seq (fun _ h => h ▸ hauthority) fun head _ => ?_
  refine .weaken (P := Replayable) ?_ (fun _ h => h ▸ hauthority) fun _ _ h => h
  refine .seq resetJournal_step fun _ => ?_
  refine .seq Triple.update_state fun _ => .ret ?_
  rintro _ ⟨a, hrecords, rfl⟩
  exact ⟨Ledger.empty, by rw [hrecords]; rfl, rfl, fun _ => rfl⟩

theorem compactExpiredTerminalTombstones_keeps :
    Keeps (J := J) (compactExpiredTerminalTombstones now) := by
  refine .read_state fun authority hauthority => ?_
  refine .weaken (P := Replayable) ?_ (fun _ h => h ▸ hauthority) fun _ _ h => h
  split
  · exact .ret fun _ h => h
  · exact compact_keeps

/-! ## Runs -/

theorem replayable_afterCall {authority : DurableDelegationAuthority J} (h : Replayable authority)
    (call : Call) : Replayable (authority.afterCall call) := by
  cases call with
  | prepare identity computeUnits memoryBytes now =>
    simp only [afterCall, DelegationBudget.new]
    by_cases hunits : computeUnits = 0
    · simpa [hunits] using h
    · rw [if_neg hunits]
      exact Triple.snd (prepare_keeps hunits) h
  | offered token now => exact Triple.snd offered_keeps h
  | accepted token workerId reservation now => exact Triple.snd accepted_keeps h
  | publish token now => exact Triple.snd publish_keeps h
  | running token now => exact Triple.snd running_keeps h
  | heartbeat token now => exact Triple.snd heartbeat_keeps h
  | resultSealed token result reply now => exact Triple.snd resultSealed_keeps h
  | resultApplied token now => exact Triple.snd resultApplied_keeps h
  | complete token now => exact Triple.snd complete_keeps h
  | failClosed token reason now => exact Triple.snd (close_keeps .failedClosed (by decide)) h
  | revoke token reason now => exact Triple.snd (close_keeps .revoked (by decide)) h
  | cancel token now => exact Triple.snd (close_keeps .cancelled (by decide)) h
  | expireStale now => exact Triple.snd expireStale_keeps h
  | compactExpiredTerminalTombstones now =>
    exact Triple.snd compactExpiredTerminalTombstones_keeps h

theorem replayable_afterCalls {authority : DurableDelegationAuthority J} (h : Replayable authority)
    (calls : List Call) : Replayable (authority.afterCalls calls) := by
  induction calls generalizing authority with
  | nil => exact h
  | cons call calls ih => exact ih (replayable_afterCall h call)

end Operations

theorem replayable_recover {journal : J} {authority : DurableDelegationAuthority J}
    (h : (DurableDelegationAuthority.recover journal).1 = .ok authority) : Replayable authority := by
  unfold DurableDelegationAuthority.recover at h
  split at h
  · cases h
  · split at h
    · cases h
    case h_2 ledger hreplay =>
      split at h
      · cases h
      · cases h
        exact ⟨ledger, hreplay, rfl, fun _ => rfl⟩

/-- Whatever is called on a recovered authority and whatever its journal refuses, the records replay
to the live authority, their fencing tokens rise, and a permit stands on an event that is recorded. -/
theorem authority_eq_replay [Sha256] [LawfulDelegationJournal J] (journal : J)
    {authority : DurableDelegationAuthority J}
    (hrecover : (DurableDelegationAuthority.recover journal).1 = .ok authority)
    (calls : List Call) : (∃ ledger, Ledger.empty.replayAll
        (records (authority.afterCalls calls).journal) = .ok ledger ∧
      Agrees (authority.afterCalls calls).toLedger ledger) ∧
    (preparedTokens (records (authority.afterCalls calls).journal)).Pairwise (· < ·) ∧
    ∀ token now permit after,
      DurableDelegationAuthority.publish token now (authority.afterCalls calls) = (.ok permit, after) →
      ∃ event ∈ records after.journal, Publishes event permit := by
  have hlive := replayable_afterCalls (replayable_recover hrecover) calls
  obtain ⟨ledger, hreplay, hagrees⟩ := hlive
  refine ⟨⟨ledger, hreplay, hagrees⟩, (preparedTokens_ordered hreplay).1, ?_⟩
  intro token now permit after hpublish
  exact (Triple.ok publish_step ⟨ledger, hreplay, hagrees⟩ hpublish).2

end

def firstIdentity : DelegationIdentity := ⟨"job", "task", "coordinator", zeroSha256, zeroSha256⟩
def firstToken : DelegationToken := ⟨"job", "task", 1⟩

/-- An empty journal that refuses its first append. -/
def refusingJournal : MemoryDelegationJournal := { MemoryDelegationJournal.empty with
  failNextAppend := true }

/-- A delegation brought up to its acceptance, prepared again after the refusal. -/
def callsToAccepted : List Call :=
  [.prepare firstIdentity 1 0 5, .prepare firstIdentity 1 0 6, .offered firstToken 7,
    .accepted firstToken "1" zeroSha256 8]

theorem authority_eq_replay_published : Nonempty Sha256 ∧ ∀ [Sha256], ∃ live,
    (DurableDelegationAuthority.recover refusingJournal).1 = .ok ⟨Ledger.empty, refusingJournal⟩ ∧
      live = (DurableDelegationAuthority.mk Ledger.empty refusingJournal).afterCalls callsToAccepted ∧
      (∃ ledger, Ledger.empty.replayAll (records live.journal) = .ok ledger ∧
        Agrees live.toLedger ledger) ∧ (preparedTokens (records live.journal)).Pairwise (· < ·) ∧
      ∀ permit after, DurableDelegationAuthority.publish firstToken 9 live = (.ok permit, after) →
        ∃ event ∈ records after.journal, Publishes event permit := by
  refine ⟨⟨⟨fun _ => zeroSha256, fun _ => by decide⟩⟩, ?_⟩
  intro _
  obtain ⟨hreplay, htokens, hpermit⟩ := authority_eq_replay refusingJournal rfl callsToAccepted
  exact ⟨_, rfl, rfl, hreplay, htokens, hpermit firstToken 9⟩

end Clearra.Proof.Delegation
