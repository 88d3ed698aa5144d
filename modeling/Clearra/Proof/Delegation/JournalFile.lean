import Clearra.Proof.Delegation.EventText

/-!
# What reopening makes of a file

Reading goes line by line, so it can be resumed where a readable file ends. From there: bytes without
a newline are dropped, the line of the next event is taken, and two kinds of line end the reading for
good, an event out of sequence and a line that begins with the torn start of another.
-/

namespace Clearra.Proof.Delegation

open Clearra.Delegation Lib List
open Lib (JsonReader JsonShape renderObject utf8 fromUtf8)

/-- The bytes of an event's line, without its newline. -/
def eventLine (event : DelegationEvent) : List UInt8 := utf8 (canonicalEventJson event)

theorem newline_not_mem_eventLine (event : DelegationEvent) : 0x0a ∉ eventLine event := by
  rw [eventLine, canonicalEventJson_eq]
  exact newline_not_mem_renderObject _

theorem eventLine_head (event : DelegationEvent) :
    ∃ rest, eventLine event = Scan.objectHead ++ rest := by
  have hkey : jsonString "schema" = "\"s" ++ "chema\"" := by decide
  rw [eventLine, canonicalEventJson_eq]
  refine ⟨utf8 ("chema\"" ++ (":" ++ (optionalJsonString (some schema) ++ ("," ++
    (renderMembers (eventFields event).tail ++ "\x7d"))))), ?_⟩
  have hsplit : renderObject (eventFields event) = "\x7b\"s" ++ ("chema\"" ++ (":" ++
      (optionalJsonString (some schema) ++ ("," ++
        (renderMembers (eventFields event).tail ++ "\x7d"))))) := by
    have hbrace : "\x7b\"s" = "\x7b" ++ "\"s" := by decide
    show "\x7b" ++ (jsonString "schema" ++ ":" ++ optionalJsonString (some schema) ++ "," ++
      renderMembers (eventFields event).tail) ++ "\x7d" = _
    rw [hkey, hbrace]
    simp only [String.append_assoc]
  rw [hsplit, utf8_append]
  rfl

theorem eventLine_shape [JsonReader] (event : DelegationEvent) : JsonShape (eventLine event) := by
  obtain ⟨object, hread, -, -⟩ := JsonReader.flat (eventFields event) (eventFields_nodup event)
  rw [eventLine, canonicalEventJson_eq]
  exact JsonReader.shape hread

/-! ## Built events -/

variable {records : List DelegationEvent} {draft : DelegationEventDraft} {event : DelegationEvent}

theorem buildEvent_eq_ok [Sha256] :
    buildEvent records draft = .ok event ↔ event.toDelegationEventDraft = draft ∧
      nextSequence records = .ok event.sequence ∧ event.previousEventSha256 = chainHead records ∧
      event.eventSha256 = Sha256.hex (utf8 (canonicalHashMaterial event.sequence
        event.toDelegationEventDraft event.previousEventSha256)) := by
  simp only [buildEvent, bind_eq_ok, pure, Except.pure, Except.ok.injEq]
  constructor
  · rintro ⟨sequence, hsequence, rfl⟩
    exact ⟨rfl, hsequence, rfl, rfl⟩
  · rintro ⟨rfl, hsequence, hprevious, hdigest⟩
    refine ⟨event.sequence, hsequence, ?_⟩
    rw [← hprevious, ← hdigest]

theorem nextSequence_eq_ok {sequence : UInt64} :
    nextSequence records = .ok sequence ↔
      records.length + 1 < 2 ^ 64 ∧ sequence.toNat = records.length + 1 := by
  unfold nextSequence
  split_ifs with h
  · rw [Except.ok.injEq, ← UInt64.toNat_inj, UInt64.toNat_ofNat_of_lt' h]
    exact ⟨fun hs => ⟨h, hs.symm⟩, fun hs => hs.2.symm⟩
  · exact ⟨nofun, fun hs => absurd hs.1 h⟩

theorem isSha256_chainHead (h : ∀ event ∈ records, isSha256 event.eventSha256) :
    isSha256 (chainHead records) := by
  unfold chainHead
  cases hlast : records.getLast? with
  | none => decide
  | some event => exact h event (mem_of_getLast? hlast)

/-! ## One line -/

variable {bytes : List UInt8}

theorem decodeText_eq_ok {line : Nat} {reason text : String} :
    decodeText bytes line reason = .ok text ↔ utf8 text = bytes := by
  unfold decodeText
  constructor
  · intro h
    split at h
    case h_1 hutf =>
      cases h
      exact utf8_of_fromUtf8 hutf
    case h_2 => cases h
  · rintro rfl
    rw [fromUtf8_utf8]

section

variable [Sha256] [JsonReader]

theorem recoverLine_built (hbuild : buildEvent records draft = .ok event)
    (hdraft : WellFormed draft) (hhead : isSha256 (chainHead records)) :
    recoverLine records (eventLine event) = .ok event := by
  obtain ⟨rfl, hsequence, hprevious, hdigest⟩ := buildEvent_eq_ok.1 hbuild
  rw [recoverLine, eventLine, decodeText_eq_ok.2 rfl, ok_bind,
    parseEvent_canonical.2 ⟨rfl, hdraft, hprevious ▸ hhead, hdigest ▸ Sha256.isSha256_hex _,
      hdigest.symm⟩, ok_bind, hsequence, ok_bind,
    refuseIf_of_not (not_not.2 rfl), ok_bind, refuseIf_of_not (not_not.2 hprevious)]
  rfl

theorem recoverLine_eq_ok (h : recoverLine records bytes = .ok event) :
    ∃ text, utf8 text = bytes ∧ parseEvent text (records.length + 1) = .ok event ∧
      nextSequence records = .ok event.sequence := by
  simp only [recoverLine, bind_eq_ok, decodeText_eq_ok, refuseIf_eq_ok, not_not, ne_eq] at h
  obtain ⟨text, htext, event', hevent, sequence, hsequence, _, hs, _, -, hpure⟩ := h
  cases hpure
  exact ⟨text, htext, hevent, hs ▸ hsequence⟩

theorem parseEvent_eq_ok {text : String} {line : Nat} (h : parseEvent text line = .ok event) :
    JsonShape (utf8 text) ∧ isSha256 event.eventSha256 := by
  simp only [parseEvent, bind_eq_ok, refuseIf_eq_ok, not_or, not_not] at h
  obtain ⟨object, hobject, _, -, sequence, -, phase, -, units, -, identity, -, previous, -, digest, -,
    _, ⟨-, hdigest⟩, draft, -, _, -, _, -, _, -, hpure⟩ := h
  cases hpure
  refine ⟨?_, hdigest⟩
  cases hread : JsonReader.fromStr text with
  | error message => rw [readObject, hread] at hobject; cases hobject
  | ok value => exact JsonReader.shape hread

theorem recoverLine_torn (records : List DelegationEvent) (torn : List UInt8)
    (event : DelegationEvent) :
    ∃ error, recoverLine records (0x7b :: torn ++ eventLine event) = .error error := by
  cases hr : recoverLine records (0x7b :: torn ++ eventLine event) with
  | error error => exact ⟨error, rfl⟩
  | ok read =>
    obtain ⟨text, htext, hparse, -⟩ := recoverLine_eq_ok hr
    have hshape := (parseEvent_eq_ok hparse).1
    obtain ⟨rest, hrest⟩ := eventLine_head event
    have hline := eventLine_shape event
    rw [hrest] at hline htext
    rw [htext, not_jsonShape_torn hline] at hshape
    cases hshape

/-- An event is read from its line only in its own place, and only if its draft was well formed. -/
theorem recoverLine_misplaced {records others : List DelegationEvent}
    (hbuild : buildEvent records draft = .ok event)
    (hbad : ¬WellFormed draft ∨ others.length ≠ records.length) :
    ∃ error, recoverLine others (eventLine event) = .error error := by
  cases hr : recoverLine others (eventLine event) with
  | error error => exact ⟨error, rfl⟩
  | ok read =>
    obtain ⟨rfl, hsequence, -, -⟩ := buildEvent_eq_ok.1 hbuild
    obtain ⟨text, htext, hparse, hnext⟩ := recoverLine_eq_ok hr
    have htexts : text = canonicalEventJson event := by
      have := congrArg fromUtf8 htext
      rw [eventLine, fromUtf8_utf8, fromUtf8_utf8] at this
      exact Option.some.inj this
    rw [htexts] at hparse
    obtain ⟨rfl, hdraft, -⟩ := parseEvent_canonical.1 hparse
    have hwrote := (nextSequence_eq_ok.1 hsequence).2
    have hread := (nextSequence_eq_ok.1 hnext).2
    cases hbad with
    | inl hill => exact absurd hdraft hill
    | inr hlength => omega

/-! ## Many lines -/

variable {records : List DelegationEvent} {offset : Nat} {seen : List UInt8}

theorem recoverFrom_of_not_mem (h : 0x0a ∉ bytes) (rest : List UInt8) :
    recoverFrom records offset seen (bytes ++ rest) =
      recoverFrom records offset (bytes.reverse ++ seen) rest := by
  induction bytes generalizing seen with
  | nil => rfl
  | cons b bytes ih =>
    rw [mem_cons, not_or] at h
    rw [cons_append, recoverFrom, if_neg (Ne.symm h.1), ih h.2]
    simp

theorem recoverFrom_tail (h : 0x0a ∉ bytes) :
    recoverFrom records offset [] bytes = .ok (records, offset) := by
  have := @recoverFrom_of_not_mem bytes _ _ records offset [] h []
  rw [append_nil] at this
  rw [this]
  rfl

theorem recoverFrom_line {line : List UInt8} (h : 0x0a ∉ line) (rest : List UInt8) :
    recoverFrom records offset [] (line ++ 0x0a :: rest) = (do
      let event ← recoverLine records line
      recoverFrom (records ++ [event]) (offset + line.length + 1) [] rest) := by
  rw [recoverFrom_of_not_mem h, recoverFrom, if_pos rfl]
  simp

theorem recoverFrom_append {read : List DelegationEvent}
    (h : recoverFrom records offset seen bytes = .ok (read, offset + seen.length + bytes.length))
    (rest : List UInt8) :
    recoverFrom records offset seen (bytes ++ rest) =
      recoverFrom read (offset + seen.length + bytes.length) [] rest := by
  induction bytes generalizing records offset seen with
  | nil =>
    simp only [recoverFrom, Except.ok.injEq, Prod.mk.injEq, length_nil] at h
    have hseen : seen = [] := length_eq_zero_iff.1 (by omega)
    rw [h.1, hseen]
    rfl
  | cons b bytes ih =>
    rw [cons_append, recoverFrom]
    rw [recoverFrom] at h
    split_ifs at h ⊢ with hb
    · obtain ⟨event, hevent, h⟩ := bind_eq_ok.1 h
      have hlength : offset + seen.length + (b :: bytes).length =
          offset + seen.length + 1 + ([] : List UInt8).length + bytes.length := by
        simp only [length_cons, length_nil]
        omega
      rw [hlength] at h ⊢
      rw [hevent, ok_bind]
      exact ih h
    · have hlength : offset + seen.length + (b :: bytes).length =
          offset + (b :: seen).length + bytes.length := by
        simp only [length_cons]
        omega
      rw [hlength] at h ⊢
      exact ih h

theorem recoverFrom_digests {read : List DelegationEvent} {length : Nat}
    (h : recoverFrom records offset seen bytes = .ok (read, length))
    (hrecords : ∀ event ∈ records, isSha256 event.eventSha256) :
    ∀ event ∈ read, isSha256 event.eventSha256 := by
  induction bytes generalizing records offset seen with
  | nil =>
    cases h
    exact hrecords
  | cons b bytes ih =>
    rw [recoverFrom] at h
    split_ifs at h
    · obtain ⟨event, hevent, h⟩ := bind_eq_ok.1 h
      obtain ⟨text, -, hparse, -⟩ := recoverLine_eq_ok hevent
      refine ih h ?_
      intro other hother
      cases mem_append.1 hother with
      | inl hmem => exact hrecords other hmem
      | inr hmem =>
        rw [mem_singleton.1 hmem]
        exact (parseEvent_eq_ok hparse).2
    · exact ih h hrecords

/-- The file holds exactly these records and nothing else. -/
def Holds (bytes : List UInt8) (records : List DelegationEvent) : Prop :=
  recoverJsonl bytes = .ok (records, bytes.length)

variable {bytes : List UInt8}

theorem Holds.recover (h : Holds bytes records) (rest : List UInt8) :
    recoverJsonl (bytes ++ rest) = recoverFrom records bytes.length [] rest := by
  have happend := @recoverFrom_append bytes _ _ [] 0 [] records
    (by simpa [Holds, recoverJsonl] using h) rest
  simpa [recoverJsonl] using happend

theorem Holds.head (h : Holds bytes records) : isSha256 (chainHead records) :=
  isSha256_chainHead (recoverFrom_digests h (by simp))

theorem holds_nil : Holds [] [] := rfl

theorem Holds.line (h : Holds bytes records) (hbuild : buildEvent records draft = .ok event)
    (hdraft : WellFormed draft) :
    Holds (bytes ++ (eventLine event ++ [0x0a])) (records ++ [event]) := by
  unfold Holds
  rw [h.recover, recoverFrom_line (newline_not_mem_eventLine event), recoverLine_built hbuild hdraft
    h.head, ok_bind]
  simp only [recoverFrom, length_append, length_singleton, Except.ok.injEq, Prod.mk.injEq, true_and]
  omega

theorem Holds.tail (h : Holds bytes records) {torn : List UInt8} (ht : 0x0a ∉ torn) :
    recoverJsonl (bytes ++ torn) = .ok (records, bytes.length) := by
  rw [h.recover, recoverFrom_tail ht]

/-- Nothing written later makes the file readable again. -/
def Ruined (bytes : List UInt8) : Prop :=
  ∀ rest, ∃ error, recoverJsonl (bytes ++ rest) = .error error

theorem Ruined.append (h : Ruined bytes) (more : List UInt8) : Ruined (bytes ++ more) := by
  intro rest
  rw [append_assoc]
  exact h (more ++ rest)

theorem Holds.ruined (h : Holds bytes records) {line : List UInt8} (hline : 0x0a ∉ line)
    (hbad : ∃ error, recoverLine records line = .error error) :
    Ruined (bytes ++ (line ++ [0x0a])) := by
  intro rest
  obtain ⟨error, herror⟩ := hbad
  refine ⟨error, ?_⟩
  rw [append_assoc, append_assoc, h.recover]
  show recoverFrom records bytes.length [] (line ++ 0x0a :: rest) = _
  rw [recoverFrom_line hline, herror]
  rfl

end

end Clearra.Proof.Delegation
