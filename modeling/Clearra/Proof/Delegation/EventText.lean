import Clearra.Delegation.NativeJournal
import Clearra.Lib.Decimal
import Clearra.Lib.FlatJson

/-!
# An event read back from its line

The line of an event is one flat object of nineteen members. Reading it gives the event back when its
draft is one the authority makes: a valid identity, and digests where it has any.
-/

namespace Clearra.Proof.Delegation

open Clearra.Delegation Lib String
open Lib (JsonReader JsonValue renderObject renderMembers jsonString optionalJsonString utf8 flatValue)

/-! ## The line -/

variable {fields : List (String × Option String)}

theorem renderMembers_append (hf : fields ≠ []) (key : String) (value : Option String) :
    renderMembers (fields ++ [(key, value)]) =
      renderMembers fields ++ "," ++ (jsonString key ++ ":" ++ optionalJsonString value) := by
  induction fields with
  | nil => exact absurd rfl hf
  | cons field rest ih =>
    obtain ⟨key', value'⟩ := field
    cases rest with
    | nil => simp [renderMembers, append_assoc]
    | cons next rest =>
      have hrest := ih (List.cons_ne_nil _ _)
      simp only [List.cons_append] at hrest ⊢
      simp only [renderMembers, hrest, append_assoc]

/-- A text that ends in a quote keeps its last brace from the brace that is trimmed. -/
theorem trimEndMatches_quote (text : String) :
    trimEndMatches '}' (text ++ "\"" ++ "\x7d") = text ++ "\"" := by
  apply toList_inj.1
  simp [trimEndMatches]

theorem renderMembers_ends_quote (hf : fields ≠ []) (key value : String) :
    ∃ body, renderMembers (fields ++ [(key, some value)]) = body ++ "\"" := by
  refine ⟨renderMembers fields ++ "," ++ (jsonString key ++ ":" ++
    ("\"" ++ String.join (value.toList.map escapeChar))), ?_⟩
  rw [renderMembers_append hf]
  simp only [optionalJsonString, jsonString, append_assoc]

/-- Trimming the closing brace of an object whose last value is a string opens it again. -/
theorem trimEndMatches_renderObject (hf : fields ≠ []) (key value : String) :
    trimEndMatches '}' (renderObject (fields ++ [(key, some value)])) =
      "\x7b" ++ renderMembers (fields ++ [(key, some value)]) := by
  obtain ⟨body, hbody⟩ := renderMembers_ends_quote hf key value
  rw [renderObject, hbody, ← append_assoc]
  exact trimEndMatches_quote _

def eventFields (event : DelegationEvent) : List (String × Option String) :=
  materialFields event.sequence event.toDelegationEventDraft event.previousEventSha256 ++
    [("event_sha256", some event.eventSha256)]

theorem materialFields_split (sequence : UInt64) (draft : DelegationEventDraft) (previous : String) :
    ∃ fields, fields ≠ [] ∧ materialFields sequence draft previous =
      fields ++ [("previous_event_sha256", some previous)] :=
  ⟨(materialFields sequence draft previous).dropLast, by simp [materialFields], rfl⟩

theorem canonicalEventJson_eq (event : DelegationEvent) :
    canonicalEventJson event = renderObject (eventFields event) := by
  have hkey : ",\"event_sha256\":" = "," ++ (jsonString "event_sha256" ++ ":") := by decide
  obtain ⟨fields, hf, hmaterial⟩ := materialFields_split event.sequence event.toDelegationEventDraft
    event.previousEventSha256
  have hlast := @renderMembers_append
    (fields ++ [("previous_event_sha256", some event.previousEventSha256)]) (by simp) "event_sha256"
    (some event.eventSha256)
  rw [canonicalEventJson, canonicalHashMaterial, eventFields, hmaterial,
    trimEndMatches_renderObject hf, renderObject, hlast, hkey]
  simp only [optionalJsonString, append_assoc]

/-! ## Its members -/

variable {object : JsonObject} {line : Nat}

theorem stringField_of_lookup {key value : String} (h : object.lookup key = some (.string value)) :
    stringField object key line = .ok value := by
  rw [stringField, h]

theorem optionalStringField_of_lookup {key : String} {value : Option String}
    (h : object.lookup key = some (flatValue value)) :
    optionalStringField object key line = .ok value := by
  rw [optionalStringField, h]
  cases value <;> rfl

/-! ## Decimals -/

theorem canonical_toString (n : Nat) : ¬(toString n ≠ "0" ∧ ((toString n).toList.head? = some '0' ∨
    ¬((toString n).toList.all Char.isDigit) = true)) := by
  rintro ⟨hne, hhead | hdigits⟩
  · rw [toList_toString] at hhead
    refine head_toDigits ?_ hhead
    rintro rfl
    exact hne rfl
  · rw [toList_toString] at hdigits
    exact hdigits (all_isDigit_toDigits n)

theorem decimalField_of_lookup {key : String} {n : Nat} (hn : n < 2 ^ 64)
    (h : object.lookup key = some (.string (toString n))) :
    decimalField object key line = .ok (UInt64.ofNat n) := by
  have hparse : (toString n).toNat? = some n := Nat.toNat?_repr n
  rw [decimalField, stringField_of_lookup h, ok_bind, refuseIf_of_not (canonical_toString n),
    ok_bind, parseU64, hparse]
  exact if_pos hn

theorem decimalField_toNat {key : String} {value : UInt64}
    (h : object.lookup key = some (.string (toString value.toNat))) :
    decimalField object key line = .ok value := by
  rw [decimalField_of_lookup value.toNat_lt h, UInt64.ofNat_toNat]

theorem parseComputeUnits_of_lookup {value : UInt32}
    (h : object.lookup "compute_units" = some (.string (toString value.toNat))) :
    parseComputeUnits object line = .ok value := by
  have hlt : value.toNat < 2 ^ 32 := value.toNat_lt
  have hwide : value.toNat < 2 ^ 64 := Nat.lt_trans hlt (by decide)
  rw [parseComputeUnits, decimalField_of_lookup hwide h, ok_bind,
    UInt64.toNat_ofNat_of_lt' hwide, if_pos hlt, UInt32.ofNat_toNat]

/-! ## The event -/

theorem parse_asStr (phase : DelegationPhase) : DelegationPhase.parse phase.asStr = some phase := by
  cases phase <;> decide

theorem eventFields_nodup (event : DelegationEvent) : ((eventFields event).map Prod.fst).Nodup := by
  show List.Nodup ["schema", "sequence", "job_id", "task_id", "coordinator_id", "payload_sha256",
    "request_sha256", "compute_units", "memory_bytes", "phase", "fencing_token", "worker_id",
    "reservation_sha256", "result_sha256", "worker_reply_sha256", "timestamp_unix_ms", "reason",
    "previous_event_sha256", "event_sha256"]
  decide

/-- The object a reader makes of an event's line. -/
structure MembersOf (event : DelegationEvent) (object : JsonObject) : Prop where
  size : object.length = 19
  lookup : ∀ key, object.lookup key = ((eventFields event).lookup key).map flatValue

theorem readObject_canonical [JsonReader] (event : DelegationEvent) (line : Nat) :
    ∃ object, readObject (canonicalEventJson event) line "record is not an object" = .ok object ∧
      MembersOf event object := by
  obtain ⟨object, hread, hlength, hlookup⟩ := JsonReader.flat (eventFields event)
    (eventFields_nodup event)
  refine ⟨object, ?_, hlength, hlookup⟩
  rw [readObject, canonicalEventJson_eq, hread]

namespace MembersOf

variable {event : DelegationEvent} {object : JsonObject} (h : MembersOf event object) (line : Nat)
include h

theorem checkSchema : checkSchema object line = .ok () := by
  have hschema : object.lookup "schema" = some (.string schema) := h.lookup "schema"
  rw [Clearra.Delegation.checkSchema, refuseIf_of_not (not_not.2 h.size), ok_bind,
    stringField_of_lookup hschema, ok_bind]
  exact refuseIf_of_not (not_not.2 rfl)

theorem parsePhase : parsePhase object line = .ok event.phase := by
  have hphase : object.lookup "phase" = some (.string event.phase.asStr) := h.lookup "phase"
  rw [Clearra.Delegation.parsePhase, stringField_of_lookup hphase, ok_bind, parse_asStr]

theorem parseIdentity {identity : DelegationIdentity} :
    parseIdentity object line = .ok identity ↔
      event.identity.validate = .ok () ∧ event.identity = identity := by
  rw [Clearra.Delegation.parseIdentity, stringField_of_lookup (h.lookup "job_id"), ok_bind,
    stringField_of_lookup (h.lookup "task_id"), ok_bind,
    stringField_of_lookup (h.lookup "coordinator_id"), ok_bind,
    stringField_of_lookup (h.lookup "payload_sha256"), ok_bind,
    stringField_of_lookup (h.lookup "request_sha256"), ok_bind]
  show (event.identity.validate.mapError _ >>= fun _ => pure event.identity) = _ ↔ _
  rw [bind_eq_ok]
  simp only [mapError_eq_ok, pure, Except.pure, Except.ok.injEq]
  exact ⟨fun ⟨_, hvalid, hid⟩ => ⟨hvalid, hid⟩, fun ⟨hvalid, hid⟩ => ⟨(), hvalid, hid⟩⟩

theorem parseDraft : parseDraft object line event.identity event.phase event.budget.computeUnits =
    .ok event.toDelegationEventDraft := by
  rw [Clearra.Delegation.parseDraft, decimalField_toNat (h.lookup "memory_bytes"), ok_bind,
    decimalField_toNat (h.lookup "fencing_token"), ok_bind,
    optionalStringField_of_lookup (h.lookup "worker_id"), ok_bind,
    optionalStringField_of_lookup (h.lookup "reservation_sha256"), ok_bind,
    optionalStringField_of_lookup (h.lookup "result_sha256"), ok_bind,
    optionalStringField_of_lookup (h.lookup "worker_reply_sha256"), ok_bind,
    decimalField_toNat (h.lookup "timestamp_unix_ms"), ok_bind,
    optionalStringField_of_lookup (h.lookup "reason"), ok_bind]
  rfl

end MembersOf

/-- A draft whose line can be read back. -/
structure WellFormed (draft : DelegationEventDraft) : Prop where
  identity : draft.identity.validate = .ok ()
  reservationSha256 : digestValid draft.reservationSha256
  resultSha256 : digestValid draft.resultSha256
  workerReplySha256 : digestValid draft.workerReplySha256

instance (draft : DelegationEventDraft) : Decidable (WellFormed draft) :=
  decidable_of_iff (draft.identity.validate = .ok () ∧ digestValid draft.reservationSha256 ∧
      digestValid draft.resultSha256 ∧ digestValid draft.workerReplySha256)
    ⟨fun h => ⟨h.1, h.2.1, h.2.2.1, h.2.2.2⟩, fun h => ⟨h.1, h.2, h.3, h.4⟩⟩

/-- What parsing the text of an event gives: the event, if it is well formed and carries its digest. -/
theorem parseEvent_canonical [Sha256] [JsonReader] {event read : DelegationEvent} :
    parseEvent (canonicalEventJson event) line = .ok read ↔
      read = event ∧ WellFormed event.toDelegationEventDraft ∧
        isSha256 event.previousEventSha256 ∧ isSha256 event.eventSha256 ∧
        Sha256.hex (utf8 (canonicalHashMaterial event.sequence event.toDelegationEventDraft
          event.previousEventSha256)) = event.eventSha256 := by
  obtain ⟨object, hobject, h⟩ := readObject_canonical event line
  rw [parseEvent, hobject, ok_bind, h.checkSchema, ok_bind,
    decimalField_toNat (h.lookup "sequence"), ok_bind, h.parsePhase, ok_bind,
    parseComputeUnits_of_lookup (h.lookup "compute_units"), ok_bind]
  rw [bind_eq_ok]
  simp only [h.parseIdentity, stringField_of_lookup (h.lookup "previous_event_sha256"),
    stringField_of_lookup (h.lookup "event_sha256"), ok_bind]
  constructor
  · rintro ⟨_, ⟨hvalid, rfl⟩, hrest⟩
    rw [h.parseDraft] at hrest
    simp only [bind_eq_ok, refuseIf_eq_ok, not_or, not_not, ne_eq, Except.ok.injEq] at hrest
    obtain ⟨_, ⟨hprevious, hdigest⟩, _, rfl, _, hreservation, _, ⟨hresult, hreply⟩, _, hhash, hread⟩ :=
      hrest
    cases hread
    exact ⟨rfl, ⟨hvalid, hreservation, hresult, hreply⟩, hprevious, hdigest, hhash⟩
  · rintro ⟨rfl, hdraft, hprevious, hdigest, hhash⟩
    refine ⟨_, ⟨hdraft.identity, rfl⟩, ?_⟩
    rw [refuseIf_of_not (by simp [hprevious, hdigest]), ok_bind, h.parseDraft, ok_bind,
      refuseIf_of_not (not_not.2 hdraft.reservationSha256), ok_bind,
      refuseIf_of_not (by simp [hdraft.resultSha256, hdraft.workerReplySha256]), ok_bind,
      refuseIf_of_not (not_not.2 hhash), ok_bind]
    rfl

end Clearra.Proof.Delegation
