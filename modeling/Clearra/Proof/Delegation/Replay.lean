import Clearra.Delegation.Authority

/-!
# What a replayed journal guarantees

Replay re-validates every event with rules of its own. Two things follow from the fact that it got
through: every state it built is one that a valid event could repeat, and the fencing tokens of the
prepared events rise. The other direction is the one the live authority needs: an event drafted from
such a state, along an allowed transition, is one that replay accepts.
-/

namespace Clearra.Proof.Delegation

open Clearra.Delegation Lib Option List

/-! ## Sound events -/

/-- Phases in which a worker is reserved. -/
def reserved : DelegationPhase → Bool
  | .prepared | .offered => false
  | _ => true

/-- Phases in which a result is sealed. -/
def sealed : DelegationPhase → Bool
  | .resultSealed | .resultApplied | .completed => true
  | _ => false

/-- What `validate_replayed_event` asks of an event. -/
structure Sound (draft : DelegationEventDraft) : Prop where
  identity : draft.identity.validate = .ok ()
  budget : draft.budget.computeUnits ≠ 0
  fencingToken : draft.fencingToken ≠ 0
  reservation : draft.workerId.isSome = draft.reservationSha256.isSome
  worker : ∀ id, draft.workerId = some id → isWorkerId id
  reply : draft.resultSha256.isSome = draft.workerReplySha256.isSome
  phase : draft.phase.closing = false →
    draft.workerId.isSome = reserved draft.phase ∧ draft.resultSha256.isSome = sealed draft.phase

variable {event : DelegationEvent}

theorem validatePhaseFields_eq_ok :
    validatePhaseFields event = .ok () ↔
      (event.phase.closing = false → event.workerId.isSome = reserved event.phase ∧
        event.resultSha256.isSome = sealed event.phase) := by
  unfold validatePhaseFields
  cases event.phase <;> cases event.workerId <;> cases event.resultSha256 <;>
    simp [bind_eq_ok, DelegationPhase.closing, reserved, sealed]

theorem validateReplayedEvent_eq_ok :
    validateReplayedEvent event = .ok () ↔ Sound event.toDelegationEventDraft := by
  have hworker : ¬(event.workerId.any (!isWorkerId ·)) = true ↔
      ∀ id, event.workerId = some id → isWorkerId id := by
    cases event.workerId <;> simp
  simp only [validateReplayedEvent, bind_eq_ok, mapError_eq_ok, refuseIf_eq_ok,
    validatePhaseFields_eq_ok, hworker, not_not, ne_eq]
  constructor
  · rintro ⟨_, hidentity, _, hbudget, _, htoken, _, hreservation, _, hid, _, hreply, hphase⟩
    exact ⟨hidentity, hbudget, htoken, hreservation, hid, hreply, hphase⟩
  · intro h
    exact ⟨(), h.identity, (), h.budget, (), h.fencingToken, (), h.reservation, (), h.worker, (),
      h.reply, h.phase⟩

/-! ## Drafts of a state -/

/-- The event a transition drafts from a state. -/
def draftTo (state : DelegationState) (target : DelegationPhase) (now : UInt64)
    (fields : DurableDelegationAuthority.TransitionFields) : DelegationEventDraft where
  identity := state.identity
  budget := state.budget
  phase := target
  fencingToken := state.fencingToken
  workerId := fields.workerId.or state.workerId
  reservationSha256 := fields.reservationSha256.or state.reservationSha256
  resultSha256 := fields.resultSha256.or state.resultSha256
  workerReplySha256 := fields.workerReplySha256.or state.workerReplySha256
  timestampUnixMs := now
  reason := fields.reason

/-- The event that would leave a state as it is. -/
def repeated (state : DelegationState) : DelegationEventDraft := draftTo state state.phase 0 {}

/-- What a transition to a phase has to bring: the worker when it is accepted, the result when it is
sealed, nothing otherwise. -/
structure Brings (target : DelegationPhase) (fields : DurableDelegationAuthority.TransitionFields) :
    Prop where
  worker : if target = .accepted then
      ∃ id digest, fields.workerId = some id ∧ fields.reservationSha256 = some digest ∧ isWorkerId id
    else fields.workerId = none ∧ fields.reservationSha256 = none
  result : if target = .resultSealed then
      ∃ digest reply, fields.resultSha256 = some digest ∧ fields.workerReplySha256 = some reply
    else fields.resultSha256 = none ∧ fields.workerReplySha256 = none

theorem brings_reason (target : DelegationPhase) {reason : Option String}
    (haccepted : target ≠ .accepted) (hsealed : target ≠ .resultSealed) :
    Brings target { reason } := by
  constructor
  · rw [if_neg haccepted]
    exact ⟨rfl, rfl⟩
  · rw [if_neg hsealed]
    exact ⟨rfl, rfl⟩

theorem brings_worker {workerId reservation : String} (h : isWorkerId workerId) :
    Brings .accepted { workerId := some workerId, reservationSha256 := some reservation } := by
  constructor
  · rw [if_pos rfl]
    exact ⟨workerId, reservation, rfl, rfl, h⟩
  · rw [if_neg (by decide)]
    exact ⟨rfl, rfl⟩

theorem brings_result {result reply : String} :
    Brings .resultSealed { resultSha256 := some result, workerReplySha256 := some reply } := by
  constructor
  · rw [if_neg (by decide)]
    exact ⟨rfl, rfl⟩
  · rw [if_pos rfl]
    exact ⟨result, reply, rfl, rfl⟩

variable {source target : DelegationPhase}

theorem not_closing_of_validTransition (h : validTransition source target = true) :
    source.closing = false := by
  cases source <;> simp_all [validTransition, DelegationPhase.terminal, DelegationPhase.closing]

/-- Along an allowed transition the worker appears at `accepted` and stays. -/
theorem reserved_of_validTransition (h : validTransition source target = true)
    (hc : target.closing = false) :
    reserved target = if target = .accepted then true else reserved source := by
  cases source <;> cases target <;>
    simp_all [validTransition, DelegationPhase.terminal, DelegationPhase.closing, reserved]

theorem not_reserved_of_accepted (h : validTransition source .accepted = true) :
    reserved source = false := by
  cases source <;>
    simp_all [validTransition, DelegationPhase.terminal, DelegationPhase.closing, reserved]

/-- Along an allowed transition the result appears at `resultSealed` and stays. -/
theorem sealed_of_validTransition (h : validTransition source target = true)
    (hc : target.closing = false) :
    sealed target = if target = .resultSealed then true else sealed source := by
  cases source <;> cases target <;>
    simp_all [validTransition, DelegationPhase.terminal, DelegationPhase.closing, sealed]

theorem not_sealed_of_resultSealed (h : validTransition source .resultSealed = true) :
    sealed source = false := by
  cases source <;>
    simp_all [validTransition, DelegationPhase.terminal, DelegationPhase.closing, sealed]

section Drafts

variable {state : DelegationState} {target : DelegationPhase} {now : UInt64}
  {fields : DurableDelegationAuthority.TransitionFields} (hs : Sound (repeated state))
  (hv : validTransition state.phase target = true) (hb : Brings target fields)
include hs hv hb

/-- A sound state drafts a sound event along an allowed transition. -/
theorem sound_draftTo : Sound (draftTo state target now fields) := by
  have hopen := hs.phase (not_closing_of_validTransition hv)
  have hworker := hb.worker
  have hresult := hb.result
  have hreservation := hs.reservation
  have hid := hs.worker
  have hreply := hs.reply
  simp only [repeated, draftTo, none_or] at hopen hreservation hid hreply
  refine ⟨hs.identity, hs.budget, hs.fencingToken, ?_, ?_, ?_, ?_⟩
  · split at hworker
    · obtain ⟨id, digest, hi, hd, -⟩ := hworker
      simp [draftTo, hi, hd]
    · simp [draftTo, hworker, hreservation]
  · split at hworker
    · obtain ⟨id, digest, hi, -, hvalid⟩ := hworker
      intro id' h
      simp only [draftTo, hi, some_or, Option.some.injEq] at h
      exact h ▸ hvalid
    · simpa [draftTo, hworker] using hid
  · split at hresult
    · obtain ⟨digest, reply, hd, hr⟩ := hresult
      simp [draftTo, hd, hr]
    · simp [draftTo, hresult, hreply]
  · intro hc
    constructor
    · have hr := reserved_of_validTransition hv hc
      split at hworker
      · obtain ⟨id, digest, hi, -⟩ := hworker
        simp_all [draftTo]
      · simp_all [draftTo]
    · have hr := sealed_of_validTransition hv hc
      split at hresult
      · obtain ⟨digest, reply, hd, -⟩ := hresult
        simp_all [draftTo]
      · simp_all [draftTo]

omit hs hv hb in
theorem carried {phase introducedBy : DelegationPhase} {a b a' b' : Option String}
    (hab : a.isSome = b.isSome) (habsent : phase = introducedBy → a.isSome = false)
    (hkept : phase ≠ introducedBy → a' = none ∧ b' = none) :
    pairCarried phase introducedBy (a, b) (a'.or a, b'.or b) = true := by
  by_cases h : phase = introducedBy
  · have ha := habsent h
    cases a <;> cases b <;> simp_all [pairCarried]
  · obtain ⟨rfl, rfl⟩ := hkept h
    cases a <;> cases b <;> simp_all [pairCarried]

theorem worker_carried :
    pairCarried target .accepted (state.workerId, state.reservationSha256)
      ((draftTo state target now fields).workerId,
        (draftTo state target now fields).reservationSha256) = true := by
  have hopen := (hs.phase (not_closing_of_validTransition hv)).1
  have hworker := hb.worker
  refine carried hs.reservation (fun h => hopen.trans ?_) fun h => by rwa [if_neg h] at hworker
  exact not_reserved_of_accepted (h ▸ hv)

theorem result_carried :
    pairCarried target .resultSealed (state.resultSha256, state.workerReplySha256)
      ((draftTo state target now fields).resultSha256,
        (draftTo state target now fields).workerReplySha256) = true := by
  have hopen := (hs.phase (not_closing_of_validTransition hv)).2
  have hresult := hb.result
  refine carried hs.reply (fun h => hopen.trans ?_) fun h => by rwa [if_neg h] at hresult
  exact not_sealed_of_resultSealed (h ▸ hv)

end Drafts

/-! ## Ledgers -/

/-- Every state is filed under its own key and could be repeated by a valid event. -/
def LedgerSound (ledger : Ledger) : Prop :=
  ∀ key state, ledger.states[key]? = some state → state.identity.key = key ∧ Sound (repeated state)

theorem ledgerSound_empty : LedgerSound Ledger.empty := by
  intro key state h
  simp [Ledger.empty] at h

variable {state : DelegationState}

@[simp] theorem getElem?_insert_key
    {states : Std.TreeMap (String × String) DelegationState keyOrder} {key key' : String × String} :
    (states.insert key state)[key']? = if key = key' then some state else states[key']? := by
  rw [Std.TreeMap.getElem?_insert]
  simp only [Std.LawfulEqCmp.compare_eq_iff_eq]

theorem ledgerSound_insert {ledger : Ledger} {next : UInt64} (h : LedgerSound ledger)
    (hs : Sound (repeated state)) :
    LedgerSound ⟨ledger.states.insert state.identity.key state, next⟩ := by
  intro key other hother
  simp only [getElem?_insert_key] at hother
  split at hother
  case isTrue heq =>
    cases hother
    exact ⟨heq, hs⟩
  case isFalse => exact h key other hother

variable {ledger after : Ledger}

theorem replayPrepared_eq_ok :
    ledger.replayPrepared event = .ok after ↔
      ledger.states[event.identity.key]? = none ∧ ledger.nextFencingToken < event.fencingToken ∧
      after = ⟨ledger.states.insert event.identity.key
        (.prepared event.identity event.budget event.fencingToken event.timestampUnixMs),
        event.fencingToken⟩ := by
  simp only [Ledger.replayPrepared, bind_eq_ok, refuseIf_eq_ok, pure, Except.pure,
    Except.ok.injEq, Std.TreeMap.contains_eq_isSome_getElem?, Bool.not_eq_true,
    isSome_eq_false_iff, isNone_iff_eq_none, UInt64.not_le]
  constructor
  · rintro ⟨_, hkey, _, htoken, rfl⟩
    exact ⟨hkey, htoken, rfl⟩
  · rintro ⟨hkey, htoken, rfl⟩
    exact ⟨(), hkey, (), htoken, rfl⟩

theorem find_eq_ok {ledger : Ledger} {key : String × String} :
    ledger.find key = .ok state ↔ ledger.states[key]? = some state := by
  unfold Ledger.find
  cases ledger.states[key]? <;> simp

theorem replayTransition_eq_ok :
    ledger.replayTransition event = .ok after ↔
      ∃ state, ledger.states[event.identity.key]? = some state ∧
        state.fencingToken = event.fencingToken ∧ state.identity = event.identity ∧
        state.budget = event.budget ∧ validTransition state.phase event.phase = true ∧
        pairCarried event.phase .accepted (state.workerId, state.reservationSha256)
          (event.workerId, event.reservationSha256) = true ∧
        pairCarried event.phase .resultSealed (state.resultSha256, state.workerReplySha256)
          (event.resultSha256, event.workerReplySha256) = true ∧
        after = ⟨ledger.states.insert event.identity.key (state.advance event),
          ledger.nextFencingToken⟩ := by
  simp only [Ledger.replayTransition, bind_eq_ok, find_eq_ok, refuseIf_eq_ok, not_or,
    not_not, ne_eq, pure, Except.pure, Except.ok.injEq]
  constructor
  · rintro ⟨state, hstate, _, ⟨ht, hi, hb⟩, _, hv, _, hw, _, hr, rfl⟩
    exact ⟨state, hstate, ht, hi, hb, hv, hw, hr, rfl⟩
  · rintro ⟨state, hstate, ht, hi, hb, hv, hw, hr, rfl⟩
    exact ⟨state, hstate, (), ⟨ht, hi, hb⟩, (), hv, (), hw, (), hr, rfl⟩

theorem replay_eq_ok :
    ledger.replay event = .ok after ↔ Sound event.toDelegationEventDraft ∧
      (if event.phase = .prepared then ledger.replayPrepared event
        else ledger.replayTransition event) = .ok after := by
  simp only [Ledger.replay, bind_eq_ok]
  constructor
  · rintro ⟨_, hvalid, h⟩
    exact ⟨validateReplayedEvent_eq_ok.1 hvalid, h⟩
  · rintro ⟨hsound, h⟩
    exact ⟨(), validateReplayedEvent_eq_ok.2 hsound, h⟩

theorem repeated_prepared_sound (h : Sound event.toDelegationEventDraft) :
    Sound (repeated (.prepared event.identity event.budget event.fencingToken
      event.timestampUnixMs)) :=
  ⟨h.identity, h.budget, h.fencingToken, rfl, by simp [repeated, draftTo, DelegationState.prepared],
    rfl, fun _ => ⟨rfl, rfl⟩⟩

theorem repeated_advance_sound (h : Sound event.toDelegationEventDraft)
    (ht : state.fencingToken = event.fencingToken) (hi : state.identity = event.identity)
    (hb : state.budget = event.budget) : Sound (repeated (state.advance event)) := by
  refine ⟨?_, ?_, ?_, h.reservation, h.worker, h.reply, h.phase⟩
  · exact (congrArg DelegationIdentity.validate hi).trans h.identity
  · exact fun h0 => h.budget (hb ▸ h0)
  · exact fun h0 => h.fencingToken (ht ▸ h0)

theorem ledgerSound_replay (h : LedgerSound ledger) (hr : ledger.replay event = .ok after) :
    LedgerSound after := by
  obtain ⟨hsound, hr⟩ := replay_eq_ok.1 hr
  split at hr
  case isTrue =>
    obtain ⟨-, -, rfl⟩ := replayPrepared_eq_ok.1 hr
    exact ledgerSound_insert h (repeated_prepared_sound hsound)
  case isFalse =>
    obtain ⟨state, -, ht, hi, hb, -, -, -, rfl⟩ := replayTransition_eq_ok.1 hr
    rw [← hi]
    exact ledgerSound_insert h (repeated_advance_sound hsound ht hi hb)

variable {records : List DelegationEvent}

theorem replayAll_append {ledger middle : Ledger} (h : ledger.replayAll records = .ok middle) :
    ledger.replayAll (records ++ [event]) = middle.replay event := by
  rw [Ledger.replayAll] at h ⊢
  rw [foldlM_append, h]
  simp [bind, Except.bind, pure, Except.pure]
  cases middle.replay event <;> rfl

theorem replayAll_cons_eq_ok :
    ledger.replayAll (event :: records) = .ok after ↔
      ∃ middle, ledger.replay event = .ok middle ∧ middle.replayAll records = .ok after := by
  simp only [Ledger.replayAll, foldlM_cons, bind_eq_ok]

theorem ledgerSound_replayAll (h : LedgerSound ledger) (hr : ledger.replayAll records = .ok after) :
    LedgerSound after := by
  induction records generalizing ledger with
  | nil =>
    cases hr
    exact h
  | cons event records ih =>
    obtain ⟨middle, hm, hr⟩ := replayAll_cons_eq_ok.1 hr
    exact ih (ledgerSound_replay h hm) hr

/-! ## Fencing tokens -/

/-- The fencing tokens of the prepared events, in journal order. -/
def preparedTokens (records : List DelegationEvent) : List UInt64 :=
  (records.filter fun event => decide (event.phase = .prepared)).map (·.fencingToken)

theorem replay_nextFencingToken (h : ledger.replay event = .ok after) :
    if event.phase = .prepared then
      ledger.nextFencingToken < event.fencingToken ∧ after.nextFencingToken = event.fencingToken
    else after.nextFencingToken = ledger.nextFencingToken := by
  obtain ⟨-, h⟩ := replay_eq_ok.1 h
  split at h
  case isTrue hp =>
    obtain ⟨-, hlt, rfl⟩ := replayPrepared_eq_ok.1 h
    rw [if_pos hp]
    exact ⟨hlt, rfl⟩
  case isFalse hp =>
    obtain ⟨state, -, -, -, -, -, -, -, rfl⟩ := replayTransition_eq_ok.1 h
    rw [if_neg hp]

/-- A journal that replays has its tokens in order, all of them above where the replay started. -/
theorem preparedTokens_ordered (h : ledger.replayAll records = .ok after) :
    (preparedTokens records).Pairwise (· < ·) ∧
      ∀ token ∈ preparedTokens records, ledger.nextFencingToken < token := by
  induction records generalizing ledger with
  | nil => simp [preparedTokens]
  | cons event records ih =>
    obtain ⟨middle, hm, hr⟩ := replayAll_cons_eq_ok.1 h
    obtain ⟨hpair, habove⟩ := ih hr
    have hnext := replay_nextFencingToken hm
    by_cases hp : event.phase = .prepared
    · rw [if_pos hp] at hnext
      have hcons : preparedTokens (event :: records) = event.fencingToken :: preparedTokens records := by
        simp [preparedTokens, hp]
      rw [hcons]
      rw [hnext.2] at habove
      refine ⟨pairwise_cons.2 ⟨habove, hpair⟩, ?_⟩
      intro token htoken
      cases mem_cons.1 htoken with
      | inl heq => exact heq ▸ hnext.1
      | inr hmem => exact UInt64.lt_trans hnext.1 (habove token hmem)
    · rw [if_neg hp] at hnext
      have hcons : preparedTokens (event :: records) = preparedTokens records := by
        simp [preparedTokens, hp]
      rw [hcons, ← hnext]
      exact ⟨hpair, habove⟩

/-! ## Replaying what was drafted -/

theorem replay_prepared {ledger : Ledger} (hphase : event.phase = .prepared)
    (hs : Sound event.toDelegationEventDraft) (hkey : ledger.states[event.identity.key]? = none)
    (htoken : ledger.nextFencingToken < event.fencingToken) :
    ledger.replay event = .ok ⟨ledger.states.insert event.identity.key
      (.prepared event.identity event.budget event.fencingToken event.timestampUnixMs),
      event.fencingToken⟩ := by
  rw [replay_eq_ok, if_pos hphase]
  exact ⟨hs, replayPrepared_eq_ok.2 ⟨hkey, htoken, rfl⟩⟩

theorem ne_prepared_of_validTransition (h : validTransition source target = true) :
    target ≠ .prepared := by
  rintro rfl
  cases source <;> simp [validTransition, DelegationPhase.terminal, DelegationPhase.closing] at h

/-- Replay accepts the event an allowed transition drafts from a state it built. -/
theorem replay_draftTo {ledger : Ledger} {target : DelegationPhase} {now : UInt64}
    {fields : DurableDelegationAuthority.TransitionFields}
    (hstate : ledger.states[state.identity.key]? = some state) (hs : Sound (repeated state))
    (hv : validTransition state.phase target = true) (hb : Brings target fields)
    (hevent : event.toDelegationEventDraft = draftTo state target now fields) :
    ledger.replay event = .ok ⟨ledger.states.insert state.identity.key (state.advance event),
      ledger.nextFencingToken⟩ := by
  have hphase : event.phase = target := by rw [hevent]; rfl
  have hidentity : event.identity = state.identity := by rw [hevent]; rfl
  rw [replay_eq_ok, if_neg (hphase ▸ ne_prepared_of_validTransition hv)]
  refine ⟨hevent ▸ sound_draftTo hs hv hb, replayTransition_eq_ok.2 ⟨state, ?_⟩⟩
  rw [hidentity, hphase, hevent]
  exact ⟨hstate, rfl, rfl, rfl, hv, worker_carried hs hv hb, result_carried hs hv hb, rfl⟩

end Clearra.Proof.Delegation
