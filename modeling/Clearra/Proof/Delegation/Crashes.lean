import Clearra.Proof.Delegation.Authority
import Clearra.Proof.Delegation.NativeJournal

/-!
# Which failures a journal on disk survives

After a call that failed the writer goes on where the file ends now. This module says after which
histories of calls reopening the file gives back what was acknowledged: exactly those in which no
whole line was written behind bytes that a failed append had left, and no reset failed after cutting
the file. A process that stops inside a call leaves what a failure at that point leaves.
-/

namespace Clearra.Proof.Delegation

open Clearra.Delegation Lib List
open Clearra.Delegation.NativeJsonlDelegationJournal (WriteFaults JournalM append resetIfHead writeAll
  syncAll refuseQuarantined)

/-! ## Histories -/

/-- A call on the journal, with what goes wrong in it. -/
inductive JournalCall where
  | append (draft : DelegationEventDraft) (faults : WriteFaults)
  | resetIfHead (expectedEventSha256 : String) (syncFails : Bool)

/-- What failed calls have left behind since the last reset that returned. -/
inductive Wear where
  /-- nothing -/
  | clean
  /-- bytes of a failed append, with no whole line behind them -/
  | leftover
  /-- a whole line where it does not belong, or a file that was cut -/
  | broken
  deriving DecidableEq

/-- After an append that wrote these bytes. -/
def Wear.afterAppend (wear : Wear) (draft : DelegationEventDraft) (written : List UInt8)
    (acknowledged : Bool) : Wear :=
  if written = [] then wear
  else if 0x0a ∉ written then
    if wear = .clean then .leftover else wear
  else if wear = .clean ∧ WellFormed draft then
    if acknowledged then .clean else .leftover
  else .broken

/-- A journal with what its callers were told. -/
structure Session where
  journal : NativeJsonlDelegationJournal
  /-- the events whose append returned, since the last reset that did -/
  acknowledged : List DelegationEvent
  /-- the drafts whose append did not -/
  refused : List DelegationEventDraft
  wear : Wear

namespace Session

def start (journal : NativeJsonlDelegationJournal) : Session :=
  ⟨journal, journal.records, [], .clean⟩

def after [Sha256] (session : Session) : JournalCall → Session
  | .append draft faults =>
    match append draft faults session.journal with
    | (.ok event, journal) =>
      { session with
        journal
        acknowledged := session.acknowledged ++ [event]
        wear := session.wear.afterAppend draft
          (journal.file.drop session.journal.file.length) true }
    | (.error _, journal) =>
      { session with
        journal
        refused := session.refused ++ [draft]
        wear := session.wear.afterAppend draft
          (journal.file.drop session.journal.file.length) false }
  | .resetIfHead expected syncFails =>
    match resetIfHead expected syncFails session.journal with
    | (.ok (), journal) => ⟨journal, [], [], .clean⟩
    | (.error _, journal) =>
      { session with
        journal
        wear := if journal.file = session.journal.file then session.wear else .broken }

def run [Sha256] (session : Session) (calls : List JournalCall) : Session := calls.foldl after session

/-- Reopening the file gives what was acknowledged, and at most one event more, whose append
failed. -/
def Survives [Sha256] [JsonReader] (session : Session) : Prop :=
  ∃ reopened, openBound session.journal.path session.journal.file session.journal.jobId =
      .ok reopened ∧
    (reopened.records = session.acknowledged ∨
      ∃ extra, extra.toDelegationEventDraft ∈ session.refused ∧
        reopened.records = session.acknowledged ++ [extra])

end Session

theorem JobsMatch.append {jobId : Option String} {left right : List DelegationEvent}
    (hl : JobsMatch jobId left) (hr : JobsMatch jobId right) : JobsMatch jobId (left ++ right) := by
  intro job hjob event hevent
  exact (mem_append.1 hevent).elim (hl job hjob event) (hr job hjob event)

/-! ## Fragments of lines -/

/-- The start of a line, or nothing. -/
def Fragment (bytes : List UInt8) : Prop :=
  0x0a ∉ bytes ∧ (bytes = [] ∨ ∃ rest, bytes = 0x7b :: rest)

theorem fragment_nil : Fragment [] := ⟨nofun, Or.inl rfl⟩

theorem Fragment.append {left right : List UInt8} (hl : Fragment left) (hr : Fragment right) :
    Fragment (left ++ right) := by
  refine ⟨fun h => (mem_append.1 h).elim hl.1 hr.1, ?_⟩
  cases hl.2 with
  | inl hnil =>
    rw [hnil]
    exact hr.2
  | inr hcons =>
    obtain ⟨rest, rfl⟩ := hcons
    exact .inr ⟨rest ++ right, rfl⟩

/-- The first bytes of a line are a fragment or the whole of it. -/
theorem take_line (event : DelegationEvent) (n : Nat) :
    Fragment ((eventLine event ++ [0x0a]).take n) ∨
      (eventLine event ++ [0x0a]).take n = eventLine event ++ [0x0a] := by
  by_cases hn : n ≤ (eventLine event).length
  · left
    rw [take_append_of_le_length hn]
    refine ⟨fun h => newline_not_mem_eventLine event (mem_of_mem_take h), ?_⟩
    obtain ⟨rest, hrest⟩ := eventLine_head event
    cases n with
    | zero => exact .inl rfl
    | succ n =>
      rw [hrest]
      exact .inr ⟨_, rfl⟩
  · right
    refine take_of_length_le ?_
    simp only [length_append, length_singleton]
    omega

theorem afterAppend_line (wear : Wear) (draft : DelegationEventDraft) (event : DelegationEvent)
    (acknowledged : Bool) :
    wear.afterAppend draft (eventLine event ++ [0x0a]) acknowledged =
      if wear = .clean ∧ WellFormed draft then if acknowledged then .clean else .leftover
      else .broken := by
  unfold Wear.afterAppend
  rw [if_neg (by simp), if_neg (by simp)]

section

variable [Sha256] [JsonReader]

/-- A whole line behind a fragment, or out of its place, or of a draft that is not well formed. -/
theorem ruined_line {bytes g : List UInt8} {records others : List DelegationEvent}
    {draft : DelegationEventDraft} {event : DelegationEvent} (h : Holds bytes others)
    (hg : Fragment g) (hbuild : buildEvent records draft = .ok event)
    (hbad : g ≠ [] ∨ ¬WellFormed draft ∨ others.length ≠ records.length) :
    Ruined (bytes ++ g ++ (eventLine event ++ [0x0a])) := by
  rw [append_assoc, ← append_assoc g]
  refine h.ruined ?_ ?_
  · intro hmem
    exact (mem_append.1 hmem).elim hg.1 (newline_not_mem_eventLine event)
  · cases hg.2 with
    | inl hnil =>
      rw [hnil, nil_append]
      exact recoverLine_misplaced hbuild (hbad.resolve_left (not_not.2 hnil))
    | inr hcons =>
      obtain ⟨rest, hrest⟩ := hcons
      rw [hrest]
      exact recoverLine_torn others rest event

/-! ## The file, by its wear -/

/-- What is behind the header: `jobId` the job of the journal, `records` its records in memory. -/
inductive Condition (jobId : Option String) (records : List DelegationEvent)
    (refused : List DelegationEventDraft) : Wear → List UInt8 → Prop where
  | clean {body} : Holds body records → Condition jobId records refused .clean body
  | torn {body g} : Holds body records → Fragment g → g ≠ [] →
      Condition jobId records refused .leftover (body ++ g)
  | unsynced {body g event} : Holds body (records ++ [event]) → Fragment g →
      event.toDelegationEventDraft ∈ refused → JobsMatch jobId [event] →
      Condition jobId records refused .leftover (body ++ g)
  | cut {g} : records ≠ [] → Fragment g → Condition jobId records refused .broken g
  | ruined {body} : Ruined body → Condition jobId records refused .broken body

variable {jobId : Option String} {records : List DelegationEvent}
  {refused : List DelegationEventDraft} {wear : Wear} {body : List UInt8}
  {draft : DelegationEventDraft} {event : DelegationEvent}

namespace Condition

section

variable (h : Condition jobId records refused wear body)
include h

/-- A line ruins the file unless the file is clean and the draft well formed. -/
theorem ruins (hbuild : buildEvent records draft = .ok event)
    (hbad : wear ≠ .clean ∨ ¬WellFormed draft) : Ruined (body ++ (eventLine event ++ [0x0a])) := by
  cases h with
  | clean hholds =>
    have := ruined_line hholds fragment_nil hbuild (Or.inr (Or.inl (hbad.resolve_left (· rfl))))
    rwa [append_nil] at this
  | torn hholds hg hne => exact ruined_line hholds hg hbuild (Or.inl hne)
  | unsynced hholds hg hrefused hjobs =>
    refine ruined_line hholds hg hbuild (Or.inr (Or.inr ?_))
    simp
  | cut hne hg =>
    have := ruined_line holds_nil hg hbuild (Or.inr (Or.inr (by simpa [eq_comm] using hne)))
    rwa [nil_append] at this
  | ruined hruined => exact hruined.append _

theorem refuse (draft : DelegationEventDraft) :
    Condition jobId records (refused ++ [draft]) wear body := by
  cases h with
  | clean hholds => exact clean hholds
  | torn hholds hg hne => exact torn hholds hg hne
  | unsynced hholds hg hrefused hjobs =>
    exact unsynced hholds hg (mem_append_left _ hrefused) hjobs
  | cut hne hg => exact cut hne hg
  | ruined hruined => exact ruined hruined

theorem fragment {g : List UInt8}
    (hg : Fragment g) (draft : DelegationEventDraft) (acknowledged : Bool) :
    Condition jobId records refused (wear.afterAppend draft g acknowledged) (body ++ g) := by
  unfold Wear.afterAppend
  by_cases hnil : g = []
  · rw [if_pos hnil, hnil, append_nil]
    exact h
  rw [if_neg hnil, if_pos hg.1]
  cases h with
  | clean hholds => exact torn hholds hg hnil
  | torn hholds hg' hne =>
    rw [append_assoc]
    exact torn hholds (hg'.append hg) (by simp [hne])
  | unsynced hholds hg' hrefused hjobs =>
    rw [append_assoc]
    exact unsynced hholds (hg'.append hg) hrefused hjobs
  | cut hne hg' => exact cut hne (hg'.append hg)
  | ruined hruined => exact ruined (hruined.append _)

theorem acknowledge (hbuild : buildEvent records draft = .ok event) :
    Condition jobId (records ++ [event]) refused
      (wear.afterAppend draft (eventLine event ++ [0x0a]) true)
      (body ++ (eventLine event ++ [0x0a])) := by
  rw [afterAppend_line]
  by_cases hgood : wear = .clean ∧ WellFormed draft
  · rw [if_pos hgood]
    obtain ⟨rfl, hdraft⟩ := hgood
    cases h with
    | clean hholds => exact clean (hholds.line hbuild hdraft)
  · rw [if_neg hgood]
    exact ruined (h.ruins hbuild (not_and_or.1 hgood))

theorem unacknowledged (hbuild : buildEvent records draft = .ok event)
    (hjobs : JobsMatch jobId [event]) :
    Condition jobId records (refused ++ [draft])
      (wear.afterAppend draft (eventLine event ++ [0x0a]) false)
      (body ++ (eventLine event ++ [0x0a])) := by
  rw [afterAppend_line]
  by_cases hgood : wear = .clean ∧ WellFormed draft
  · rw [if_pos hgood]
    obtain ⟨rfl, hdraft⟩ := hgood
    cases h with
    | clean hholds =>
      have hrefused : event.toDelegationEventDraft ∈ refused ++ [draft] := by
        rw [(buildEvent_eq_ok.1 hbuild).1]
        simp
      have hline := unsynced (hholds.line hbuild hdraft) fragment_nil hrefused hjobs
      rwa [append_nil] at hline
  · rw [if_neg hgood]
    exact ruined (h.ruins hbuild (not_and_or.1 hgood))

end

end Condition

/-! ## Sessions -/

/-- What holds of a session after every call. -/
structure Consistent (header : List UInt8) (session : Session) : Prop where
  bound : HeaderOf session.journal.jobId header
  headerLen : session.journal.headerLen = header.length
  records : session.journal.records = session.acknowledged
  jobs : JobsMatch session.journal.jobId session.acknowledged
  body : ∃ body, session.journal.file = header ++ body ∧
    Condition session.journal.jobId session.acknowledged session.refused session.wear body

theorem consistent_start {journal : NativeJsonlDelegationJournal} (h : Opened journal) :
    ∃ header, Consistent header (Session.start journal) := by
  obtain ⟨header, body, hwritable, hholds⟩ := writable_opened h
  exact ⟨header, hwritable.bound, hwritable.headerLen, rfl, hwritable.jobs, body, hwritable.file,
    .clean hholds⟩

variable {header : List UInt8} {session : Session}

section

variable (h : Consistent header session)
include h

theorem consistent_append (draft : DelegationEventDraft)
    (faults : WriteFaults) : Consistent header (session.after (.append draft faults)) := by
  obtain ⟨body, hfile, hcondition⟩ := h.body
  have htriple := append_triple draft faults session.journal rfl
  have hgrow : ∀ more, session.journal.file ++ more = header ++ (body ++ more) := by
    intro more
    rw [hfile, append_assoc]
  rw [Session.after]
  cases happend : append draft faults session.journal with
  | mk result journal =>
    rw [happend] at htriple
    cases result with
    | ok event =>
      obtain ⟨hbuild, hjobs, rfl⟩ := htriple
      rw [h.records] at hbuild
      refine ⟨h.bound, h.headerLen, congrArg (· ++ [event]) h.records, h.jobs.append hjobs,
        body ++ (eventLine event ++ [0x0a]), hgrow _, ?_⟩
      simp only [drop_left]
      exact hcondition.acknowledge hbuild
    | error error =>
      cases htriple with
      | inl hsame =>
        obtain rfl := hsame
        refine ⟨h.bound, h.headerLen, h.records, h.jobs, body, hfile, ?_⟩
        simp only [drop_length, Wear.afterAppend, if_pos]
        exact hcondition.refuse draft
      | inr hwrote =>
        obtain ⟨event, n, hbuild, hjobs, rfl⟩ := hwrote
        rw [h.records] at hbuild
        refine ⟨h.bound, h.headerLen, h.records, h.jobs,
          body ++ (eventLine event ++ [0x0a]).take n, hgrow _, ?_⟩
        simp only [drop_left]
        cases take_line event n with
        | inl hfragment => exact (hcondition.refuse draft).fragment hfragment draft false
        | inr hline =>
          rw [hline]
          exact hcondition.unacknowledged hbuild hjobs

theorem consistent_reset (expected : String) (syncFails : Bool) :
    Consistent header (session.after (.resetIfHead expected syncFails)) := by
  obtain ⟨body, hfile, hcondition⟩ := h.body
  have htriple := resetIfHead_triple expected syncFails session.journal rfl
  have hcut : session.journal.file.take session.journal.headerLen = header := by
    rw [hfile, h.headerLen, take_left]
  rw [Session.after]
  cases hreset : resetIfHead expected syncFails session.journal with
  | mk result journal =>
    rw [hreset] at htriple
    cases result with
    | ok =>
      obtain rfl := htriple
      refine ⟨h.bound, h.headerLen, rfl, by simp [JobsMatch], [], ?_, .clean holds_nil⟩
      rw [append_nil]
      exact hcut
    | error error =>
      cases htriple with
      | inl hsame =>
        obtain rfl := hsame
        refine ⟨h.bound, h.headerLen, h.records, h.jobs, body, hfile, ?_⟩
        simp only [if_pos]
        exact hcondition
      | inr hwrote =>
        obtain ⟨hrecords, rfl⟩ := hwrote
        rw [h.records] at hrecords
        refine ⟨h.bound, h.headerLen, h.records, h.jobs, [], ?_, ?_⟩
        · rw [append_nil]
          exact hcut
        · simp only [hcut]
          by_cases hempty : header = session.journal.file
          · have hbody : body = [] := append_right_eq_self.1 (hfile.symm.trans hempty.symm)
            rw [if_pos hempty, ← hbody]
            exact hcondition
          · rw [if_neg hempty]
            exact .cut hrecords fragment_nil

theorem consistent_run (calls : List JournalCall) :
    Consistent header (session.run calls) := by
  induction calls generalizing session with
  | nil => exact h
  | cons call calls ih =>
    refine ih ?_
    cases call with
    | append draft faults => exact consistent_append h draft faults
    | resetIfHead expected syncFails => exact consistent_reset h expected syncFails

/-! ## Reopening -/

/-- Reopening, from what reading the file behind its header gives. -/
theorem survives_of_recover {body : List UInt8}
    (hfile : session.journal.file = header ++ body) {read : List DelegationEvent} {length : Nat}
    (hread : recoverJsonl body = .ok (read, length)) (hjobs : JobsMatch session.journal.jobId read)
    (hgot : read = session.acknowledged ∨ ∃ extra, extra.toDelegationEventDraft ∈ session.refused ∧
      read = session.acknowledged ++ [extra]) : session.Survives := by
  refine ⟨⟨session.journal.path, (header ++ body).take (header.length + length), read, none,
    session.journal.jobId, header.length⟩, ?_, hgot⟩
  rw [hfile]
  exact (openBound_header h.bound).2 ⟨read, length, hread, hjobs, rfl⟩

theorem survives_iff : session.Survives ↔ session.wear ≠ .broken := by
  obtain ⟨body, hfile, hcondition⟩ := h.body
  constructor
  · rintro ⟨reopened, hopen, hgot⟩ hbroken
    rw [hfile] at hopen
    obtain ⟨read, length, hread, -, rfl⟩ := (openBound_header h.bound).1 hopen
    rw [hbroken] at hcondition
    cases hcondition with
    | cut hne hg =>
      rw [recoverJsonl, recoverFrom_tail hg.1] at hread
      cases hread
      cases hgot with
      | inl hall => exact hne hall.symm
      | inr hextra =>
        obtain ⟨extra, -, hextra⟩ := hextra
        simp at hextra
    | ruined hruined =>
      obtain ⟨error, herror⟩ := hruined []
      rw [append_nil, hread] at herror
      cases herror
  · intro hwear
    generalize hw : session.wear = wear at hcondition hwear
    cases hcondition with
    | clean hholds => exact survives_of_recover h hfile hholds h.jobs (Or.inl rfl)
    | torn hholds hg _ => exact survives_of_recover h hfile (hholds.tail hg.1) h.jobs (Or.inl rfl)
    | unsynced hholds hg hrefused hjobs =>
      exact survives_of_recover h hfile (hholds.tail hg.1) (h.jobs.append hjobs)
        (Or.inr ⟨_, hrefused, rfl⟩)
    | cut => exact absurd rfl hwear
    | ruined => exact absurd rfl hwear

end

/-- Acknowledged events survive exactly the histories that leave nothing broken. -/
theorem acknowledged_survive_iff {journal : NativeJsonlDelegationJournal} (h : Opened journal)
    (calls : List JournalCall) : ((Session.start journal).run calls).Survives ↔
      ((Session.start journal).run calls).wear ≠ .broken := by
  obtain ⟨header, hconsistent⟩ := consistent_start h
  exact survives_iff (consistent_run hconsistent calls)

end

/-! ### A line behind a torn one -/

/-- A journal opened on a new file. -/
def newJournal : NativeJsonlDelegationJournal := ⟨"journal.jsonl", [], [], none, none, 0⟩

theorem opened_newJournal [Sha256] [JsonReader] : Opened newJournal :=
  .path (show openPath "journal.jsonl" [] = .ok newJournal from rfl)

def firstDraft : DelegationEventDraft where
  identity := firstIdentity
  budget := ⟨1, 0⟩
  phase := .prepared
  fencingToken := 1
  workerId := none
  reservationSha256 := none
  resultSha256 := none
  workerReplySha256 := none
  timestampUnixMs := 5
  reason := none

/-- An append that writes one byte, and one that nothing happens to. -/
def tornAppend (draft : DelegationEventDraft) : JournalCall := .append draft ⟨some 1, none, false⟩
def wholeAppend (draft : DelegationEventDraft) : JournalCall := .append draft ⟨none, none, false⟩

theorem append_unbound [Sha256] {journal : NativeJsonlDelegationJournal}
    {draft : DelegationEventDraft} {event : DelegationEvent} {faults : WriteFaults}
    (hquarantine : journal.quarantineReason = none) (hjob : journal.jobId = none)
    (hbuild : buildEvent journal.records draft = .ok event) :
    append draft faults journal = (do
      writeAll (eventLine event) faults.line
      writeAll [0x0a] faults.newline
      syncAll faults.syncFails
      Fallible.update fun journal => { journal with records := journal.records ++ [event] }
      pure event : JournalM DelegationEvent) journal := by
  simp only [append, bind, Fallible.read, Fallible.lift, Fallible.refuseIf,
    refuseIf, refuseQuarantined, hquarantine, hjob, Option.any, hbuild]
  rfl

section

variable [Sha256] {session : Session} {draft : DelegationEventDraft} {event : DelegationEvent}
  (hquarantine : session.journal.quarantineReason = none) (hjob : session.journal.jobId = none)
  (hbuild : buildEvent session.journal.records draft = .ok event)
include hquarantine hjob hbuild

theorem after_torn : session.after (tornAppend draft) = { session with
      journal := { session.journal with file := session.journal.file ++ [0x7b] }
      refused := session.refused ++ [draft]
      wear := session.wear.afterAppend draft [0x7b] false } := by
  obtain ⟨rest, hrest⟩ := eventLine_head event
  have happend : append draft ⟨some 1, none, false⟩ session.journal = (.error (.io "write failed"),
        { session.journal with file := session.journal.file ++ [0x7b] }) := by
    rw [append_unbound hquarantine hjob hbuild, hrest]
    rfl
  simp only [Session.after, tornAppend, happend, drop_left]

theorem after_whole : session.after (wholeAppend draft) = { session with
      journal := { session.journal with
        file := session.journal.file ++ (eventLine event ++ [0x0a])
        records := session.journal.records ++ [event] }
      acknowledged := session.acknowledged ++ [event]
      wear := session.wear.afterAppend draft (eventLine event ++ [0x0a]) true } := by
  have happend : append draft ⟨none, none, false⟩ session.journal = (.ok event,
      { session.journal with
        file := session.journal.file ++ (eventLine event ++ [0x0a])
        records := session.journal.records ++ [event] }) := by
    rw [append_unbound hquarantine hjob hbuild, ← append_assoc]
    rfl
  simp only [Session.after, wholeAppend, happend, drop_left]

end

theorem exists_firstEvent [Sha256] : ∃ event, buildEvent [] firstDraft = .ok event := ⟨_, rfl⟩

/-- A line, and one byte of an append that failed behind it: the line is still read. -/
theorem acknowledged_survive_iff_torn : Nonempty JsonReader ∧ ∀ [Sha256] [JsonReader],
    ∃ session event,
      session = (Session.start newJournal).run [wholeAppend firstDraft, tornAppend firstDraft] ∧
        session.acknowledged = [event] ∧ session.Survives := by
  refine ⟨⟨flatReader⟩, ?_⟩
  intro _ _
  obtain ⟨event, hbuild⟩ := exists_firstEvent
  obtain ⟨next, hnext⟩ : ∃ next, buildEvent [event] firstDraft = .ok next := ⟨_, rfl⟩
  have hrun : (Session.start newJournal).run [wholeAppend firstDraft, tornAppend firstDraft] =
      ((Session.start newJournal).after (wholeAppend firstDraft)).after (tornAppend firstDraft) := rfl
  rw [after_whole rfl rfl hbuild, after_torn rfl rfl hnext] at hrun
  refine ⟨_, event, rfl, by rw [hrun]; rfl, (acknowledged_survive_iff opened_newJournal _).2 ?_⟩
  rw [hrun]
  simp only [afterAppend_line, Session.start]
  decide

/-- One byte of a failed append, and a line behind it: the append that wrote the line returned, and
the file is not readable any more. -/
theorem acknowledged_lost_behind_torn : Nonempty JsonReader ∧ ∀ [Sha256] [JsonReader],
    Opened newJournal ∧ ∃ session event,
      session = (Session.start newJournal).run [tornAppend firstDraft, wholeAppend firstDraft] ∧
        session.acknowledged = [event] ∧ ¬session.Survives := by
  refine ⟨⟨flatReader⟩, ?_⟩
  intro _ _
  obtain ⟨event, hbuild⟩ := exists_firstEvent
  have hrun : (Session.start newJournal).run [tornAppend firstDraft, wholeAppend firstDraft] =
      ((Session.start newJournal).after (tornAppend firstDraft)).after (wholeAppend firstDraft) := rfl
  rw [after_torn rfl rfl hbuild, after_whole rfl rfl hbuild] at hrun
  obtain ⟨header, hconsistent⟩ := consistent_start opened_newJournal
  refine ⟨opened_newJournal, _, event, rfl, by rw [hrun]; rfl, ?_⟩
  rw [survives_iff (consistent_run hconsistent _), hrun]
  simp only [afterAppend_line, Session.start]
  decide

end Clearra.Proof.Delegation
