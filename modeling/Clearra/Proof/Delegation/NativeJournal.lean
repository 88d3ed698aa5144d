import Clearra.Proof.Delegation.JournalFile

/-!
# Opening a journal, and what its calls leave

Opening reads the header back and keeps the part of the file it could read. From then on a call that
fails leaves the records in memory as they were, but not the file: an append may have written the
first bytes of its line or all of it, a reset may have cut the file before its sync failed.
-/

namespace Clearra.Proof.Delegation

open Clearra.Delegation Lib List
open Clearra.Delegation.NativeJsonlDelegationJournal (WriteFaults append resetIfHead)
open Lib (JsonReader renderObject utf8)

/-! ## Headers -/

/-- The header of a journal bound to a job, or none. -/
inductive HeaderOf : Option String → List UInt8 → Prop where
  | unbound : HeaderOf none []
  | bound {jobId : String} : isUuid jobId → HeaderOf (some jobId) (utf8 (canonicalNativeHeader jobId))

def headerFields (jobId : String) : List (String × Option String) :=
  [("schema", some headerSchema), ("job_id", some jobId)]

theorem utf8_header (jobId : String) :
    utf8 (canonicalNativeHeader jobId) = utf8 (renderObject (headerFields jobId)) ++ [0x0a] := by
  rw [canonicalNativeHeader, utf8_append]
  rfl

theorem takeWhile_line {line : List UInt8} (h : 0x0a ∉ line) (rest : List UInt8) :
    (line ++ 0x0a :: rest).takeWhile (· ≠ 0x0a) = line := by
  rw [takeWhile_append_of_pos]
  · simp
  · intro b hb
    simp only [ne_eq, decide_eq_true_eq]
    rintro rfl
    exact h hb

section

variable [JsonReader]

variable {jobId : String}

theorem parseHeaderLine_header (h : isUuid jobId) :
    parseHeaderLine (utf8 (renderObject (headerFields jobId))) = .ok jobId := by
  have hnodup : ((headerFields jobId).map Prod.fst).Nodup := by
    show ["schema", "job_id"].Nodup
    decide
  obtain ⟨object, hread, hlength, hlookup⟩ := JsonReader.flat (headerFields jobId) hnodup
  have hsize : object.length = 2 := hlength
  have hobject : readObject (renderObject (headerFields jobId)) 1
      "durable journal header is not an object" = .ok object := by
    rw [readObject, hread]
  rw [parseHeaderLine, decodeText_eq_ok.2 rfl, ok_bind, hobject, ok_bind,
    refuseIf_of_not (not_not.2 hsize), ok_bind, stringField_of_lookup (hlookup "schema"),
    ok_bind, refuseIf_of_not (not_not.2 rfl), ok_bind,
    stringField_of_lookup (hlookup "job_id"), ok_bind,
    refuseIf_of_not (by simp [h, utf8_header]), ok_bind]
  rfl

theorem parseNativeHeaderParts_header (h : isUuid jobId) (rest : List UInt8) :
    parseNativeHeaderParts (utf8 (canonicalNativeHeader jobId) ++ rest) =
      .ok (jobId, (utf8 (canonicalNativeHeader jobId)).length) := by
  have hline := takeWhile_line (newline_not_mem_renderObject (headerFields jobId)) rest
  rw [utf8_header, append_assoc]
  show parseNativeHeaderParts (utf8 (renderObject (headerFields jobId)) ++ 0x0a :: rest) = _
  rw [parseNativeHeaderParts, hline, refuseIf_of_not (by simp), ok_bind,
    parseHeaderLine_header h, ok_bind]
  simp [pure, Except.pure]

theorem parseHeaderLine_eq_ok {line : List UInt8} (h : parseHeaderLine line = .ok jobId) :
    isUuid jobId ∧ line ++ [0x0a] = utf8 (canonicalNativeHeader jobId) := by
  simp only [parseHeaderLine, bind_eq_ok, refuseIf_eq_ok, not_or, not_not, ne_eq] at h
  obtain ⟨_, -, _, -, _, -, _, -, _, -, found, -, _, ⟨huuid, hline⟩, hpure⟩ := h
  cases hpure
  exact ⟨huuid, hline⟩

theorem parseNativeHeaderParts_eq_ok {bytes : List UInt8} {length : Nat}
    (h : parseNativeHeaderParts bytes = .ok (jobId, length)) :
    isUuid jobId ∧ length = (utf8 (canonicalNativeHeader jobId)).length ∧
      ∃ rest, bytes = utf8 (canonicalNativeHeader jobId) ++ rest := by
  simp only [parseNativeHeaderParts, bind_eq_ok, refuseIf_eq_ok] at h
  obtain ⟨_, htorn, found, hline, hpure⟩ := h
  cases hpure
  obtain ⟨huuid, hheader⟩ := parseHeaderLine_eq_ok hline
  refine ⟨huuid, ?_, ?_⟩
  · rw [← hheader]
    simp
  · -- the line is shorter than the file, so a newline follows it
    rw [← hheader]
    have hsplit := takeWhile_append_dropWhile (p := fun b : UInt8 => decide (b ≠ 0x0a)) (l := bytes)
    cases hdrop : bytes.dropWhile (fun b => decide (b ≠ 0x0a)) with
    | nil =>
      rw [hdrop, append_nil] at hsplit
      exact absurd (congrArg List.length hsplit) htorn
    | cons b rest =>
      have hne : bytes.dropWhile (fun b => decide (b ≠ 0x0a)) ≠ [] := by
        rw [hdrop]
        exact cons_ne_nil _ _
      have hb := head_dropWhile_not _ hne
      simp only [hdrop, head_cons, ne_eq, decide_eq_false_iff_not, not_not] at hb
      refine ⟨rest, ?_⟩
      rw [hdrop, hb] at hsplit
      rw [append_assoc]
      exact hsplit.symm

end

/-! ## Opening -/

/-- Every record belongs to the job the journal is bound to, if it is. -/
def JobsMatch (jobId : Option String) (records : List DelegationEvent) : Prop :=
  ∀ job, jobId = some job → ∀ event ∈ records, event.identity.jobId = job

variable {jobId : Option String} {records : List DelegationEvent}

theorem jobsMatch_iff :
    ¬(jobId.any fun job => records.any (·.identity.jobId ≠ job)) = true ↔
      JobsMatch jobId records := by
  cases jobId with
  | none => simp [JobsMatch]
  | some job => simp [JobsMatch]

section

variable [Sha256] [JsonReader]

variable {path : String}

theorem bindHeader_header {header : List UInt8} (h : HeaderOf jobId header) (rest : List UInt8) :
    bindHeader path (header ++ rest) jobId = .ok (header ++ rest, header.length) := by
  cases h with
  | unbound => rfl
  | @bound job huuid =>
    have hne : utf8 (canonicalNativeHeader job) ++ rest ≠ [] := by
      rw [utf8_header]
      simp
    rw [bindHeader, if_neg hne, parseNativeHeader, parseNativeHeaderParts_header huuid, ok_bind]
    show ((refuseIf (job ≠ job) _ >>= fun _ => pure _).mapError _ >>= _) = _
    rw [refuseIf_of_not (not_not.2 rfl)]
    rfl

variable {journal : NativeJsonlDelegationJournal}

theorem openBound_header {header rest : List UInt8} (h : HeaderOf jobId header) :
    openBound path (header ++ rest) jobId = .ok journal ↔
      ∃ records length, recoverJsonl rest = .ok (records, length) ∧ JobsMatch jobId records ∧
        journal = ⟨path, (header ++ rest).take (header.length + length), records, none, jobId,
          header.length⟩ := by
  rw [openBound, bindHeader_header h, ok_bind]
  simp only [drop_left, bind_eq_ok, mapError_eq_ok, refuseIf_eq_ok, jobsMatch_iff,
    pure, Except.pure, Except.ok.injEq, Prod.exists]
  constructor
  · rintro ⟨records, length, hread, _, hjobs, rfl⟩
    exact ⟨records, length, hread, hjobs, rfl⟩
  · rintro ⟨records, length, hread, hjobs, rfl⟩
    exact ⟨records, length, hread, (), hjobs, rfl⟩

/-- What was read of a file is read again from the part that is kept. -/
theorem recoverFrom_take {records read : List DelegationEvent} {offset length : Nat}
    {seen bytes : List UInt8} (h : recoverFrom records offset seen bytes = .ok (read, length)) :
    (read = records ∧ length = offset) ∨ (offset + seen.length < length ∧
      length ≤ offset + seen.length + bytes.length ∧
      recoverFrom records offset seen (bytes.take (length - (offset + seen.length))) =
        .ok (read, length)) := by
  induction bytes generalizing records offset seen with
  | nil =>
    cases h
    exact Or.inl ⟨rfl, rfl⟩
  | cons b bytes ih =>
    rw [recoverFrom] at h
    split_ifs at h with hb
    · obtain ⟨event, hevent, h⟩ := bind_eq_ok.1 h
      refine Or.inr ?_
      cases ih h with
      | inl hdone =>
        obtain ⟨rfl, rfl⟩ := hdone
        have htake : offset + seen.length + 1 - (offset + seen.length) = 1 := by omega
        refine ⟨by omega, by simp only [length_cons]; omega, ?_⟩
        rw [htake, take_succ_cons, take_zero, recoverFrom, if_pos hb, hevent]
        rfl
      | inr hmore =>
        obtain ⟨hlt, hle, hmore⟩ := hmore
        simp only [length_nil, Nat.add_zero] at hlt hle hmore
        have htake : length - (offset + seen.length) =
            length - (offset + seen.length + 1) + 1 := by omega
        refine ⟨by omega, by simp only [length_cons]; omega, ?_⟩
        rw [htake, take_succ_cons, recoverFrom, if_pos hb, hevent]
        exact hmore
    · cases ih h with
      | inl hdone => exact Or.inl hdone
      | inr hmore =>
        obtain ⟨hlt, hle, hmore⟩ := hmore
        simp only [length_cons] at hlt hle hmore
        have htake : length - (offset + seen.length) =
            length - (offset + (seen.length + 1)) + 1 := by omega
        refine Or.inr ⟨by omega, by simp only [length_cons]; omega, ?_⟩
        rw [htake, take_succ_cons, recoverFrom, if_neg hb]
        exact hmore

theorem holds_take {bytes : List UInt8} {length : Nat}
    (h : recoverJsonl bytes = .ok (records, length)) : Holds (bytes.take length) records := by
  unfold Holds
  cases recoverFrom_take h with
  | inl hdone =>
    obtain ⟨rfl, rfl⟩ := hdone
    rfl
  | inr hmore =>
    obtain ⟨-, hle, hmore⟩ := hmore
    simp only [length_nil, Nat.add_zero, Nat.zero_add, Nat.sub_zero] at hle hmore
    rw [length_take, Nat.min_eq_left hle]
    exact hmore

/-- A journal that can be written to, with its file behind the header. -/
structure Writable (header body : List UInt8) (journal : NativeJsonlDelegationJournal) : Prop where
  bound : HeaderOf journal.jobId header
  headerLen : journal.headerLen = header.length
  unquarantined : journal.quarantineReason = none
  file : journal.file = header ++ body
  jobs : JobsMatch journal.jobId journal.records

theorem writable_openBound {bytes : List UInt8} (h : openBound path bytes jobId = .ok journal)
    (huuid : ∀ job, jobId = some job → isUuid job) :
    ∃ header body, Writable header body journal ∧ Holds body journal.records := by
  -- the bytes the journal starts from, behind their header
  obtain ⟨header, rest, hheader, hopen⟩ : ∃ header rest, HeaderOf jobId header ∧
      openBound path (header ++ rest) jobId = .ok journal := by
    cases jobId with
    | none => exact ⟨[], bytes, .unbound, h⟩
    | some job =>
      by_cases hempty : bytes = []
      · refine ⟨utf8 (canonicalNativeHeader job), [], .bound (huuid job rfl), ?_⟩
        rw [openBound, bindHeader, if_pos hempty] at h
        rw [openBound, bindHeader_header (.bound (huuid job rfl)), append_nil]
        exact h
      · obtain ⟨⟨bound, length⟩, hbound, -⟩ := bind_eq_ok.1 h
        rw [bindHeader, if_neg hempty] at hbound
        obtain ⟨length', hparse, -⟩ := bind_eq_ok.1 hbound
        rw [mapError_eq_ok] at hparse
        obtain ⟨⟨found, length''⟩, hparts, hfound⟩ := bind_eq_ok.1 hparse
        simp only [bind_eq_ok, refuseIf_eq_ok, not_not, ne_eq] at hfound
        obtain ⟨_, rfl, -⟩ := hfound
        obtain ⟨hid, -, rest, rfl⟩ := parseNativeHeaderParts_eq_ok hparts
        exact ⟨_, rest, .bound hid, h⟩
  obtain ⟨records, length, hread, hjobs, rfl⟩ := (openBound_header hheader).1 hopen
  refine ⟨header, rest.take length, ⟨hheader, rfl, rfl, ?_, hjobs⟩, holds_take hread⟩
  exact take_length_add_append _

/-- The three ways to open a journal. -/
inductive Opened : NativeJsonlDelegationJournal → Prop where
  | path {path bytes journal} : openPath path bytes = .ok journal → Opened journal
  | forJob {root jobId bytes journal} : openForJob root jobId bytes = .ok journal → Opened journal
  | existing {path bytes journal} :
      openExistingJobForRecovery path bytes = .ok journal → Opened journal

theorem writable_opened (h : Opened journal) :
    ∃ header body, Writable header body journal ∧ Holds body journal.records := by
  cases h with
  | path h => exact writable_openBound h nofun
  | @forJob root jobId bytes _ h =>
    simp only [openForJob, bind_eq_ok, refuseIf_eq_ok, not_not] at h
    obtain ⟨_, hid, h⟩ := h
    refine writable_openBound h ?_
    rintro _ ⟨⟩
    exact hid
  | existing h =>
    obtain ⟨⟨jobId, length⟩, hparts, h⟩ := bind_eq_ok.1 h
    refine writable_openBound h ?_
    rintro _ ⟨⟩
    exact (parseNativeHeaderParts_eq_ok (mapError_eq_ok.1 hparts)).1

end

/-! ## What a call does -/

open Lib.Fallible (Triple)
open Clearra.Delegation.NativeJsonlDelegationJournal (writeAll syncAll refuseQuarantined)

variable {E : NativeJsonlDelegationJournal → Prop}

theorem writeAll_step {journal : NativeJsonlDelegationJournal} {bytes : List UInt8}
    {stop : Option Nat} (hstop : ∀ n, E { journal with file := journal.file ++ bytes.take n }) :
    Triple (· = journal) (writeAll bytes stop)
      (fun _ after => after = { journal with file := journal.file ++ bytes }) E := by
  rintro _ rfl
  cases stop with
  | none => rfl
  | some n => exact hstop n

theorem syncAll_step {P : NativeJsonlDelegationJournal → Prop} {fails : Bool}
    (hfails : ∀ journal, P journal → E journal) :
    Triple P (syncAll fails) (fun _ after => P after) E :=
  Triple.lift_step (fun _ _ _ h => h) hfails

theorem refuseQuarantined_step {P E : NativeJsonlDelegationJournal → Prop}
    (h : ∀ journal, P journal → E journal) :
    Triple P refuseQuarantined (fun _ after => P after) E := by
  refine .read_state ?_
  intro journal hjournal
  refine .lift_step ?_ ?_
  · rintro _ _ _ rfl
    exact hjournal
  · rintro _ rfl
    exact h _ hjournal

theorem take_line_eq (line : List UInt8) (n : Nat) :
    ∃ m, line.take n = (line ++ [0x0a]).take m := by
  refine ⟨min n line.length, ?_⟩
  rw [take_append_of_le_length (Nat.min_le_right _ _), take_eq_take_min]

section

variable [Sha256]

/-- What an append that returns has done. -/
def Appended (before : NativeJsonlDelegationJournal) (draft : DelegationEventDraft)
    (event : DelegationEvent) (after : NativeJsonlDelegationJournal) : Prop :=
  buildEvent before.records draft = .ok event ∧ JobsMatch before.jobId [event] ∧
    after = { before with
      file := before.file ++ (eventLine event ++ [0x0a])
      records := before.records ++ [event] }

/-- What an append that fails may have done: it wrote some bytes of its line. -/
def AppendFailed (before : NativeJsonlDelegationJournal) (draft : DelegationEventDraft)
    (after : NativeJsonlDelegationJournal) : Prop :=
  after = before ∨ ∃ event n, buildEvent before.records draft = .ok event ∧
    JobsMatch before.jobId [event] ∧
    after = { before with file := before.file ++ (eventLine event ++ [0x0a]).take n }

theorem append_triple {before : NativeJsonlDelegationJournal} (draft : DelegationEventDraft)
    (faults : WriteFaults) :
    Triple (· = before) (append draft faults) (Appended before draft)
      (AppendFailed before draft) := by
  refine .seq (refuseQuarantined_step fun _ h => Or.inl h) fun _ => ?_
  refine .read_state ?_
  rintro before rfl
  refine .refuseIf_seq (fun _ h => Or.inl h) fun hjob => ?_
  refine .lift_seq (fun _ h => Or.inl h) fun event hbuild => ?_
  have hjobs : JobsMatch before.jobId [event] := by
    rintro job hbound other hother
    rw [mem_singleton.1 hother]
    rw [hbound, ← (buildEvent_eq_ok.1 hbuild).1] at hjob
    simpa using hjob
  -- every failure from here on leaves the first bytes of the line
  have hfailed : ∀ n, AppendFailed before draft
      { before with file := before.file ++ (eventLine event ++ [0x0a]).take n } :=
    fun n => Or.inr ⟨event, n, hbuild, hjobs, rfl⟩
  refine .seq (writeAll_step ?_) fun _ => ?_
  · intro n
    obtain ⟨m, hm⟩ := take_line_eq (eventLine event) n
    rw [show utf8 (canonicalEventJson event) = eventLine event from rfl, hm]
    exact hfailed m
  refine .seq (writeAll_step ?_) fun _ => ?_
  · intro n
    have htake := hfailed ((eventLine event).length + n)
    rw [take_length_add_append, ← append_assoc] at htake
    exact htake
  refine .seq (syncAll_step ?_) fun _ => ?_
  · rintro _ rfl
    have hwhole := hfailed (eventLine event ++ [0x0a]).length
    rw [take_length, ← append_assoc] at hwhole
    exact hwhole
  refine .seq Triple.update_state fun _ => .ret ?_
  rintro _ ⟨_, rfl, rfl⟩
  refine ⟨hbuild, hjobs, ?_⟩
  rw [← append_assoc]
  rfl

end

/-- What a reset that returns has done. -/
def Reset (before after : NativeJsonlDelegationJournal) : Prop :=
  after = { before with file := before.file.take before.headerLen, records := [] }

/-- What a reset that fails may have done: it cut the file. -/
def ResetFailed (before after : NativeJsonlDelegationJournal) : Prop :=
  after = before ∨ before.records ≠ [] ∧
    after = { before with file := before.file.take before.headerLen }

theorem ensureExpectedHead_eq_ok {expected : String}
    (h : ensureExpectedHead records expected = .ok ()) : records ≠ [] := by
  rintro rfl
  cases h

theorem resetIfHead_triple {before : NativeJsonlDelegationJournal} (expected : String)
    (syncFails : Bool) :
    Triple (· = before) (resetIfHead expected syncFails) (fun _ after => Reset before after)
      (ResetFailed before) := by
  refine .seq (refuseQuarantined_step fun _ h => Or.inl h) fun _ => ?_
  refine .read_state ?_
  rintro before rfl
  refine .lift_seq (fun _ h => Or.inl h) fun _ hhead => ?_
  refine .seq Triple.update_state fun _ => ?_
  refine .seq (syncAll_step ?_) fun _ => ?_
  · rintro _ ⟨_, rfl, rfl⟩
    exact Or.inr ⟨ensureExpectedHead_eq_ok hhead, rfl⟩
  refine .weaken Triple.update_state (fun _ h => h) ?_
  rintro _ _ ⟨_, ⟨_, rfl, rfl⟩, rfl⟩
  rfl

end Clearra.Proof.Delegation
