import Clearra.Proof.Delegation.Crashes

/-!
# An authority on a file

The authority writes its journal to disk, where any call may fail. As long as nothing is broken there,
a restart reads back what the authority stands on.
-/

namespace Clearra.Proof.Delegation

open Clearra.Delegation Lib List
open NativeJsonlDelegationJournal (WriteFaults append resetIfHead)

/-- A journal on disk, with the faults of the calls to come. -/
structure DiskJournal [Sha256] (opened : NativeJsonlDelegationJournal) where
  session : Session
  faults : List WriteFaults
  /-- where `quarantine` has moved the file, and why -/
  moved : Option (String × String)
  reached : ∃ calls, session = (Session.start opened).run calls

namespace DiskJournal

variable [Sha256] {opened : NativeJsonlDelegationJournal} {session : Session}

/-- The faults of the next call. -/
def next (disk : DiskJournal opened) : WriteFaults := disk.faults.headD ⟨none, none, false⟩

def after (disk : DiskJournal opened) (call : JournalCall) : DiskJournal opened where
  session := disk.session.after call
  faults := disk.faults.tail
  moved := disk.moved
  reached := by
    obtain ⟨calls, h⟩ := disk.reached
    exact ⟨calls ++ [call], by simp [h, Session.run]⟩

/-- `quarantine`, where the first name it tries is free. If a step on the file system fails, the file is
    where it was. -/
def quarantine (reason : String) (disk : DiskJournal opened) :
    Except DelegationJournalError Unit × DiskJournal opened :=
  let faults := disk.faults.tail
  if disk.moved.isSome then (.ok (), disk)
  else if disk.next.syncFails then (.error (.io "sync failed"), { disk with faults })
  else
    let path := disk.session.journal.path ++ ".quarantine-" ++ Sha256.hex disk.session.journal.file
    (.ok (), { disk with faults, moved := some (path, reason) })

/-- A call on a journal that was not moved. -/
def ifThere {α : Type} (disk : DiskJournal opened)
    (call : Except DelegationJournalError α × DiskJournal opened) :
    Except DelegationJournalError α × DiskJournal opened :=
  match disk.moved with
  | some (_, reason) => (.error (.corrupt 0 ("journal is quarantined: " ++ reason)), disk)
  | none => call

instance : DelegationJournal (DiskJournal opened) where
  records disk := disk.session.journal.records
  quarantineReason disk := disk.moved.map Prod.snd
  quarantine := quarantine
  append draft disk := disk.ifThere ((append draft disk.next disk.session.journal).1,
    disk.after (.append draft disk.next))
  resetIfHead head disk := disk.ifThere ((resetIfHead head disk.next.syncFails disk.session.journal).1,
    disk.after (.resetIfHead head disk.next.syncFails))

/-- Whatever the call does not do, the refusal does not either. -/
theorem ifThere_eq {α : Type} {disk : DiskJournal opened}
    {call result : Except DelegationJournalError α × DiskJournal opened}
    (h : disk.ifThere call = result) : call = result ∨ result.2 = disk ∧ ∀ a, result.1 ≠ .ok a := by
  unfold ifThere at h
  split at h
  · subst h
    exact .inr ⟨rfl, nofun⟩
  · exact .inl h

theorem journal_append {draft faults} :
    (session.after (.append draft faults)).journal = (append draft faults session.journal).2 := by
  rw [Session.after]
  split <;> simp [*]

theorem journal_reset {head fails} :
    (session.after (.resetIfHead head fails)).journal = (resetIfHead head fails session.journal).2 := by
  rw [Session.after]
  split <;> simp [*]

instance : LawfulDelegationJournal (DiskJournal opened) where
  append_ok {draft disk _ _} h := by
    obtain h | ⟨-, hno⟩ := ifThere_eq h
    swap
    · exact absurd rfl (hno _)
    obtain ⟨hresult, rfl⟩ := Prod.mk.inj h
    obtain ⟨hbuild, -, hafter⟩ := (append_triple draft disk.next).ok rfl (Prod.ext hresult rfl)
    exact ⟨hbuild, congrArg (·.records) (journal_append.trans hafter)⟩
  append_error {draft disk _ _} h := by
    obtain h | ⟨rfl, -⟩ := ifThere_eq h
    swap
    · rfl
    obtain ⟨hresult, rfl⟩ := Prod.mk.inj h
    rcases (append_triple draft disk.next).error rfl (Prod.ext hresult rfl) with
        hafter | ⟨_, _, -, -, hafter⟩ <;>
      exact congrArg (·.records) (journal_append.trans hafter)
  reset_ok {head disk _} h := by
    obtain h | ⟨-, hno⟩ := ifThere_eq h
    swap
    · exact absurd rfl (hno _)
    obtain ⟨hresult, rfl⟩ := Prod.mk.inj h
    have hafter := (resetIfHead_triple head disk.next.syncFails).ok rfl (Prod.ext hresult rfl)
    exact congrArg (·.records) (journal_reset.trans hafter)
  reset_error {head disk _ _} h := by
    obtain h | ⟨rfl, -⟩ := ifThere_eq h
    swap
    · rfl
    obtain ⟨hresult, rfl⟩ := Prod.mk.inj h
    rcases (resetIfHead_triple head disk.next.syncFails).error rfl (Prod.ext hresult rfl) with
        hafter | ⟨-, hafter⟩ <;>
      exact congrArg (·.records) (journal_reset.trans hafter)

end DiskJournal

/-- Whatever is called on an authority on disk and whatever fails there, the events it was told of replay
to it, and opening the file again gives them back exactly when nothing was broken. -/
theorem restart_recovers [Sha256] [JsonReader] {opened : NativeJsonlDelegationJournal}
    (h : Opened opened) (disk : DiskJournal opened)
    {authority : DurableDelegationAuthority (DiskJournal opened)}
    (hrecover : (DurableDelegationAuthority.recover disk).1 = .ok authority) (calls : List Call) :
    let live := authority.afterCalls calls
    (∃ ledger, Ledger.empty.replayAll live.journal.session.acknowledged = .ok ledger ∧
      Agrees live.toLedger ledger) ∧
    (live.journal.session.Survives ↔ live.journal.session.wear ≠ .broken) := by
  intro live
  obtain ⟨ledger, hreplay, hagrees⟩ := replayable_afterCalls (replayable_recover hrecover) calls
  obtain ⟨header, hstart⟩ := consistent_start h
  obtain ⟨journalCalls, hreached⟩ := live.journal.reached
  have hconsistent := consistent_run hstart journalCalls
  rw [← hreached] at hconsistent
  exact ⟨⟨ledger, hconsistent.records ▸ hreplay, hagrees⟩, survives_iff hconsistent⟩

/-- A disk on which the second append writes one byte. -/
def tornDisk [Sha256] : DiskJournal newJournal :=
  ⟨.start newJournal, [⟨none, none, false⟩, ⟨some 1, none, false⟩], none, [], rfl⟩

/-- A delegation is prepared, and its offer is lost half-way: a restart finds it prepared. -/
theorem restart_recovers_torn : Nonempty JsonReader ∧ ∀ [Sha256] [JsonReader], ∃ live event,
    live = (DurableDelegationAuthority.mk Ledger.empty tornDisk).afterCalls
        [.prepare firstIdentity 1 0 5, .offered firstToken 6] ∧
      live.journal.session.acknowledged = [event] ∧
      (∃ ledger, Ledger.empty.replayAll [event] = .ok ledger ∧ Agrees live.toLedger ledger) ∧
      live.journal.session.Survives := by
  refine ⟨⟨flatReader⟩, ?_⟩
  intro _ _
  obtain ⟨event, hbuild⟩ := exists_firstEvent
  obtain ⟨next, hnext⟩ : ∃ next, buildEvent [event] { firstDraft with
    phase := .offered, timestampUnixMs := 6 } = .ok next := ⟨_, rfl⟩
  have hrun : ((DurableDelegationAuthority.mk Ledger.empty tornDisk).afterCalls
      [.prepare firstIdentity 1 0 5, .offered firstToken 6]).journal.session =
      ((Session.start newJournal).after (wholeAppend firstDraft)).after (tornAppend { firstDraft with
        phase := .offered, timestampUnixMs := 6 }) := rfl
  rw [after_whole rfl rfl hbuild, after_torn rfl rfl hnext] at hrun
  have hevents : ((DurableDelegationAuthority.mk Ledger.empty tornDisk).afterCalls
      [.prepare firstIdentity 1 0 5, .offered firstToken 6]).journal.session.acknowledged = [event] := by
    rw [hrun]
    rfl
  obtain ⟨hreplay, hsurvives⟩ := restart_recovers opened_newJournal tornDisk rfl
    [.prepare firstIdentity 1 0 5, .offered firstToken 6]
  refine ⟨_, event, rfl, hevents, hevents ▸ hreplay, hsurvives.2 ?_⟩
  rw [hrun]
  simp only [afterAppend_line, Session.start]
  decide

end Clearra.Proof.Delegation
