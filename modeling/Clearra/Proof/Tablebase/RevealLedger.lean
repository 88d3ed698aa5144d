import Clearra.Proof.Tablebase.BagReveal
import Clearra.Tablebase.RevealLedger

/-!
# The ledger comes out even

Every source of reveals has a list of probabilities, one for each rank, that add up to one
(`probabilities`). A page of a source is a run of ranks with these probabilities, in lowest terms. So
after each page the ledger holds the exact sum of the ranks that have come (`LedgerOk`), and at the
end that sum is one: of the errors the ledger has, those that say the source is wrong never occur.
-/

namespace Clearra.Proof.Tablebase

open Clearra.Tablebase Lib ObservationRevealFamily List

/-! ## Sources -/

/-- The probability of each rank. -/
def probabilities : ObservationRevealFamily → List ℚ
  | .finite family _ _ => List.replicate family.count (1 / family.count)
  | .fixed _ _ => [1]
  | .bag family => (drawPaths family.hiddenDraws family.sourceState).map fun path =>
      (path.map drawProbability).prod

/-- A family as it is made. -/
def RevealFamilyOk : ObservationRevealFamily → Prop
  | .bag family => FamilyOk family
  | _ => True

/-- A cursor of this family as paging leaves it. -/
inductive RevealCursorOk : ObservationRevealFamily → ObservationRevealCursor → Prop
  | finite {family : Pc4FiniteQueueFamily} {pageLimit allocatedPiecesLimit nextOrdinal : Nat}
      (h : nextOrdinal ≤ family.count) :
      RevealCursorOk (.finite family pageLimit allocatedPiecesLimit) (.finite ⟨family, nextOrdinal⟩)
  | fixed {token pageLimit : Nat} {consumed : Bool} :
      RevealCursorOk (.fixed token pageLimit) (.fixed token consumed)
  | bag {family : Pc4BagRevealFamily} {cursor : Pc4BagRevealCursor} (h : CursorOk family cursor) :
      RevealCursorOk (.bag family) (.bag cursor)

/-- A sequence with its rank and the probability of that rank. -/
structure RevealsAt (family : ObservationRevealFamily) (rank : Nat)
    (sequence : ObservationRevealSequence) : Prop where
  rank_eq : sequence.rank = rank
  canonical : Canonical sequence.probability
  value_eq : (probabilities family)[rank]? = some (value sequence.probability)

variable {cancelled : Nat → Bool} {limit : Nat}

section

variable {family : ObservationRevealFamily}

theorem length_probabilities (hfamily : RevealFamilyOk family) :
    (probabilities family).length = family.totalSequences := by
  cases family with
  | finite family _ _ => exact length_replicate
  | fixed _ _ => rfl
  | bag family => rw [probabilities, length_map, totalSequences,
      hfamily.total_eq]

theorem sum_probabilities (family : ObservationRevealFamily) : (probabilities family).sum = 1 := by
  cases family with
  | finite family _ _ =>
    have hcount : (family.count : ℚ) ≠ 0 := Nat.cast_ne_zero.mpr family.count_pos.ne'
    rw [probabilities, sum_replicate, nsmul_eq_mul, mul_one_div_cancel hcount]
  | fixed _ _ => exact sum_singleton
  | bag family => exact sum_paths draws _ sum_drawProbability _ _

theorem revealCursorOk_initial (hfamily : RevealFamilyOk family) :
    RevealCursorOk family family.cursor := by
  cases family with
  | finite family _ _ => exact .finite (Nat.zero_le _)
  | fixed _ _ => exact .fixed
  | bag family => exact .bag (cursorOk_initial hfamily)

theorem RevealCursorOk.exhausted_iff {cursor : ObservationRevealCursor}
    (h : RevealCursorOk family cursor) :
    cursor.isExhausted = true ↔ cursor.nextRank = family.totalSequences := by
  cases h with
  | finite h => exact beq_iff_eq
  | @fixed _ _ consumed => cases consumed <;> simp [ObservationRevealCursor.isExhausted,
      ObservationRevealCursor.nextRank, totalSequences]
  | bag h => exact h.exhausted_iff

theorem totalSequences_pos (hfamily : RevealFamilyOk family) : 0 < family.totalSequences := by
  cases family with
  | finite family _ _ => exact family.count_pos
  | fixed _ _ => exact Nat.one_pos
  | bag family => exact (paths_pos _ _).trans_eq hfamily.total_eq.symm

/-! ## Their pages -/

theorem readOutcome_eq_ok {family : Pc4FiniteQueueFamily} {ordinal : Nat} {work work' : PageWork}
    {outcome : FiniteQueueOutcome} (h : family.readOutcome ordinal work = .ok (outcome, work')) :
    outcome.rank = ordinal ∧ outcome.probability = .uniform family.count := by
  rw [Pc4FiniteQueueFamily.readOutcome] at h
  split at h
  · simp at h
  · split at h
    · simp at h
    · simp only [Except.ok.injEq, Prod.mk.injEq] at h
      rw [← h.1]
      exact ⟨rfl, rfl⟩

variable {outcomes : List FiniteQueueOutcome}

theorem readLoop_eq_ok {family : Pc4FiniteQueueFamily}
    {pageLimit allocatedPiecesLimit count ordinal : Nat} {work work' : PageWork}
    (hle : ordinal + count ≤ family.count)
    (h : family.readLoop cancelled count ordinal work = .ok (outcomes, work')) :
    List.Forall₂ (RevealsAt (.finite family pageLimit allocatedPiecesLimit))
      (List.range' ordinal count) (outcomes.map finiteSequence) := by
  induction count generalizing ordinal outcomes work work' with
  | zero =>
    cases h
    exact .nil
  | succ count ih =>
    simp only [Pc4FiniteQueueFamily.readLoop, run_bind_eq_ok] at h
    obtain ⟨_, w, -, outcome, w1, houtcome, rest, w2, hrest, h⟩ := h
    cases h
    obtain ⟨hrank, hprobability⟩ := readOutcome_eq_ok houtcome
    rw [range'_succ, map_cons]
    refine .cons ⟨hrank, ?_, ?_⟩ (ih (by omega) hrest)
    · rw [finiteSequence, hprobability]
      exact canonical_uniform family.count_pos
    · rw [probabilities, getElem?_replicate_of_lt (by omega), finiteSequence, hprobability,
        value_uniform]

theorem finite_nextPage_eq_ok {family : Pc4FiniteQueueFamily}
    {pageLimit allocatedPiecesLimit ordinal : Nat} {cursor' : FiniteQueueCursor}
    (hle : ordinal ≤ family.count)
    (h : family.nextPage cancelled ⟨family, ordinal⟩ limit pageLimit allocatedPiecesLimit =
      .ok (outcomes, cursor')) :
    cursor' = ⟨family, ordinal + min limit (family.count - ordinal)⟩ ∧
      List.Forall₂ (RevealsAt (.finite family pageLimit allocatedPiecesLimit))
        (List.range' ordinal (min limit (family.count - ordinal)))
        (outcomes.map finiteSequence) := by
  simp only [Pc4FiniteQueueFamily.nextPage, bind_eq_ok] at h
  obtain ⟨_, -, ⟨_, w⟩, -, _, -, _, -, _, -, ⟨page, w1⟩, hpage, ⟨_, w2⟩, -, h⟩ := h
  cases h
  exact ⟨rfl, readLoop_eq_ok (by omega) hpage⟩

theorem revealsAt_bagSequence {family : Pc4BagRevealFamily} {rank : Nat}
    {sequence : Pc4BagRevealSequence} (h : RevealedAt family rank sequence) :
    RevealsAt (.bag family) rank (bagSequence sequence) := by
  obtain ⟨hrank, path, hpath, hfollows⟩ := h
  refine ⟨hrank, hfollows.canonical, ?_⟩
  rw [probabilities, getElem?_map, hpath, Option.map_some]
  exact congrArg some hfollows.value_eq.symm

variable {cursor cursor' : ObservationRevealCursor} {page : List ObservationRevealSequence}

/-- The ranks a page of a source has. -/
def pageRanks (family : ObservationRevealFamily) (cursor : ObservationRevealCursor) (limit : Nat) : Nat :=
  min limit (family.totalSequences - cursor.nextRank)

/-- A page of any source is the run of ranks from the cursor on, as many as asked for or left. -/
theorem sourcePage_eq_ok (hfamily : RevealFamilyOk family) (hcursor : RevealCursorOk family cursor)
    (hlimit : 0 < limit) (h : sourcePage cancelled limit family cursor = .ok (page, cursor')) :
    RevealCursorOk family cursor' ∧
      cursor'.nextRank = cursor.nextRank + pageRanks family cursor limit ∧
      List.Forall₂ (RevealsAt family)
        (List.range' cursor.nextRank (pageRanks family cursor limit)) page := by
  cases hcursor with
  | finite hle =>
    simp only [sourcePage, bind_eq_ok] at h
    obtain ⟨⟨outcomes, inner⟩, hpage, h⟩ := h
    cases h
    obtain ⟨rfl, hreveals⟩ := finite_nextPage_eq_ok hle hpage
    exact ⟨.finite (by omega), rfl, hreveals⟩
  | @fixed _ _ consumed =>
    simp only [sourcePage, bind_eq_ok] at h
    obtain ⟨_, -, _, -, h⟩ := h
    cases h
    refine ⟨.fixed, ?_⟩
    cases consumed with
    | true =>
      rw [show pageRanks (.fixed _ _) (.fixed _ true) limit = 0 from Nat.min_zero limit]
      exact ⟨rfl, .nil⟩
    | false =>
      rw [show pageRanks (.fixed _ _) (.fixed _ false) limit = 1 from Nat.min_eq_right hlimit]
      exact ⟨rfl, .cons ⟨rfl, canonical_one, congrArg some value_one.symm⟩ .nil⟩
  | bag hinner =>
    simp only [sourcePage, bind_eq_ok] at h
    obtain ⟨⟨sequences, inner⟩, hpage, h⟩ := h
    cases h
    obtain ⟨hinner', hrank, hrevealed⟩ := nextPage_eq_ok hfamily hinner hpage
    refine ⟨.bag hinner', hrank, List.forall₂_map_right_iff.mpr ?_⟩
    exact hrevealed.imp fun _ _ => revealsAt_bagSequence

theorem reveal_nextPage_eq_ok (hfamily : RevealFamilyOk family) {guard : RevealGuard}
    (hcursor : RevealCursorOk family cursor) (hlimit : 0 < limit)
    (h : family.nextPage guard cursor limit = .ok (page, cursor')) :
    RevealCursorOk family cursor' ∧
      cursor'.nextRank = cursor.nextRank + pageRanks family cursor limit ∧
      List.Forall₂ (RevealsAt family)
        (List.range' cursor.nextRank (pageRanks family cursor limit)) page := by
  simp only [nextPage, bind_eq_ok] at h
  obtain ⟨_, -, _, hpage, _, -, h⟩ := h
  cases h
  exact sourcePage_eq_ok hfamily hcursor hlimit hpage

/-! ## Adding up -/

/-- The errors that say the source does not list what it should. -/
def Disagrees : Pc4ObservationRevealLedgerPageError → Prop
  | .nonCanonicalRevealRank _ _ | .outcomeCountMismatch _ _ | .probabilityNotNormalized _ => True
  | _ => False

/-- The sum is that of the first `emittedOutcomes` ranks. -/
structure Tallied (family : ObservationRevealFamily) (cursor : Pc4ObservationRevealLedgerCursor) :
    Prop where
  canonical : Canonical cursor.accumulatedProbability
  value_eq : value cursor.accumulatedProbability =
    ((probabilities family).take cursor.emittedOutcomes).sum

/-- What recording `length` outcomes does. -/
structure Records (family : ObservationRevealFamily) (cursor cursor' : Pc4ObservationRevealLedgerCursor)
    (length : Nat) : Prop where
  tallied : Tallied family cursor'
  emitted : cursor'.emittedOutcomes = cursor.emittedOutcomes + length
  token : cursor'.familyToken = cursor.familyToken
  reveal : cursor'.revealCursor = cursor.revealCursor

variable {cursor : Pc4ObservationRevealLedgerCursor}

theorem recordOutcome_spec {sequence : ObservationRevealSequence} (hcursor : Tallied family cursor)
    (hsequence : RevealsAt family cursor.emittedOutcomes sequence) :
    (∀ e, recordOutcome cursor sequence = .error e → e = .probabilityOverflow) ∧
      ∀ cursor', recordOutcome cursor sequence = .ok cursor' → Records family cursor cursor' 1 := by
  rw [recordOutcome, refuseIf_of_not (not_not.mpr hsequence.rank_eq), ok_bind]
  cases hsum : cursor.accumulatedProbability.checkedAdd sequence.probability with
  | none => exact ⟨fun e he => (Except.error.inj he).symm, by simp⟩
  | some sum =>
    cases hemitted : checkedAdd128 cursor.emittedOutcomes 1 with
    | none => exact ⟨fun e he => (Except.error.inj he).symm, by simp⟩
    | some emitted =>
      refine ⟨fun e he => absurd he (by simp [pure, Except.pure]), fun cursor' h => ?_⟩
      cases h
      obtain rfl := checkedAdd128_eq_some hemitted
      obtain ⟨hcanonical, hvalue⟩ := checkedAdd_spec hcursor.canonical hsequence.canonical hsum
      obtain ⟨hlt, hget⟩ := List.getElem?_eq_some_iff.mp hsequence.value_eq
      refine ⟨⟨hcanonical, ?_⟩, rfl, rfl, rfl⟩
      rw [sum_take_succ _ _ hlt, hget, hvalue, hcursor.value_eq]

theorem foldlM_recordOutcome {length : Nat}
    {sequences : List ObservationRevealSequence} (hcursor : Tallied family cursor)
    (h : List.Forall₂ (RevealsAt family) (List.range' cursor.emittedOutcomes length) sequences) :
    (∀ e, sequences.foldlM recordOutcome cursor = .error e → e = .probabilityOverflow) ∧
      ∀ cursor', sequences.foldlM recordOutcome cursor = .ok cursor' →
        Records family cursor cursor' length := by
  induction length generalizing cursor sequences with
  | zero =>
    cases h
    refine ⟨fun e he => absurd he (by simp [pure, Except.pure]), fun cursor' h => ?_⟩
    cases h
    exact ⟨hcursor, rfl, rfl, rfl⟩
  | succ length ih =>
    rw [range'_succ] at h
    obtain _ | ⟨hhead, htail⟩ := h
    obtain ⟨herror, hok⟩ := recordOutcome_spec hcursor hhead
    refine ⟨fun e he => ?_, fun cursor' h => ?_⟩
    · rw [foldlM_cons, bind_eq_error] at he
      obtain he | ⟨next, hnext, he⟩ := he
      · exact herror e he
      · have hrecords := hok next hnext
        exact (ih hrecords.tallied (hrecords.emitted ▸ htail)).1 e he
    · rw [foldlM_cons, bind_eq_ok] at h
      obtain ⟨next, hnext, h⟩ := h
      have hrecords := hok next hnext
      have hrest := (ih hrecords.tallied (hrecords.emitted ▸ htail)).2 cursor' h
      refine ⟨hrest.tallied, ?_, hrest.token.trans hrecords.token,
        hrest.reveal.trans hrecords.reveal⟩
      rw [hrest.emitted, hrecords.emitted]
      omega

end

/-! ## The ledger -/

/-- A ledger cursor as paging leaves it. -/
structure LedgerOk (ledger : Pc4ObservationRevealLedgerFamily)
    (cursor : Pc4ObservationRevealLedgerCursor) : Prop where
  reveal : RevealCursorOk ledger.revealFamily cursor.revealCursor
  emitted_eq : cursor.emittedOutcomes = cursor.revealCursor.nextRank
  tallied : Tallied ledger.revealFamily cursor
  exhausted_eq : cursor.exhausted = cursor.revealCursor.isExhausted

/-- The cursors that successful calls of `next_page` lead to, with these limits, the last first, and any
    guards. -/
inductive Ledgered (ledger : Pc4ObservationRevealLedgerFamily) :
    List Nat → Pc4ObservationRevealLedgerCursor → Prop
  | initial : Ledgered ledger [] ledger.cursor
  | page {limits : List Nat} {cursor cursor' : Pc4ObservationRevealLedgerCursor}
      {page : Pc4ObservationRevealLedgerPage} (guard : LedgerGuard) (limit : Nat) (hlimit : 0 < limit)
      (hcursor : Ledgered ledger limits cursor)
      (h : ledger.nextPage guard cursor limit = .ok (page, cursor')) :
      Ledgered ledger (limit :: limits) cursor'

/-- What a call of `next_page` may return. No call finds the source wrong; a page has the outcomes asked
    for or those left, and the sum it ends with is one. -/
structure LedgerStep (ledger : Pc4ObservationRevealLedgerFamily)
    (cursor : Pc4ObservationRevealLedgerCursor) (guard : LedgerGuard) (limit : Nat) : Prop where
  agrees : ∀ e, ledger.nextPage guard cursor limit = .error e → ¬Disagrees e
  length_eq : ∀ page cursor', ledger.nextPage guard cursor limit = .ok (page, cursor') →
    page.outcomes.length =
      min limit (ledger.revealFamily.totalSequences - cursor.emittedOutcomes)
  complete : ∀ page cursor', ledger.nextPage guard cursor limit = .ok (page, cursor') →
    page.exhausted = true →
      page.completeProbability = some .one ∧ cursor'.accumulatedProbability = .one

/-- After any pages the ledger has come as far as their limits reach, and when it has come to the end its
    sum is one. -/
def LedgerExact (ledger : Pc4ObservationRevealLedgerFamily) : Prop :=
  ∀ limits cursor, Ledgered ledger limits cursor →
    PagedTo ledger.revealFamily.totalSequences limits cursor.emittedOutcomes
      cursor.revealCursor.nextRank cursor.exhausted ∧
    (cursor.exhausted = true → cursor.accumulatedProbability = .one) ∧
    ∀ guard limit, 0 < limit → LedgerStep ledger cursor guard limit

section

variable {ledger : Pc4ObservationRevealLedgerFamily}
  {cursor : Pc4ObservationRevealLedgerCursor}

theorem accumulated_eq_one (hfamily : RevealFamilyOk ledger.revealFamily)
    (hcursor : Tallied ledger.revealFamily cursor)
    (hall : cursor.emittedOutcomes = ledger.revealFamily.totalSequences) :
    cursor.accumulatedProbability = .one := by
  refine canonical_ext hcursor.canonical canonical_one ?_
  rw [hcursor.value_eq, hall, ← length_probabilities hfamily, take_length, sum_probabilities,
    value_one]

theorem ledgerOk_initial (hfamily : RevealFamilyOk ledger.revealFamily) :
    LedgerOk ledger ledger.cursor := by
  have hreveal := revealCursorOk_initial hfamily
  have hrank : ledger.revealFamily.cursor.nextRank = 0 := by
    cases ledger.revealFamily <;> rfl
  refine ⟨hreveal, hrank.symm, ⟨canonical_zero, value_zero.trans ?_⟩, ?_⟩
  · exact sum_nil.symm
  · refine (Bool.eq_false_iff.mpr fun hexhausted => ?_).symm
    have htotal := hreveal.exhausted_iff.mp hexhausted
    rw [hrank] at htotal
    exact (totalSequences_pos hfamily).ne htotal

theorem checkGuard_eq_error {answer : GuardAnswer} {e : Pc4ObservationRevealLedgerPageError}
    (h : checkGuard answer = .error e) : ¬Disagrees e := by
  rw [checkGuard, bind_eq_error] at h
  obtain h | ⟨_, -, h⟩ := h
  · rw [← (refuseIf_eq_error.mp h).2]
    exact id
  · rw [← (refuseIf_eq_error.mp h).2]
    exact id

theorem not_disagrees_mapRevealError (e : Pc4BagRevealPageError) : ¬Disagrees (mapRevealError e) := by
  cases e <;> exact id

section

variable (hfamily : RevealFamilyOk ledger.revealFamily)
include hfamily

theorem recorded_ok {guard : RevealGuard}
    {sequences : List ObservationRevealSequence} {revealCursor : ObservationRevealCursor}
    (hcursor : LedgerOk ledger cursor) (hlimit : 0 < limit)
    (hpage : ledger.revealFamily.nextPage guard cursor.revealCursor limit =
      .ok (sequences, revealCursor)) :
    sequences.length = pageRanks ledger.revealFamily cursor.revealCursor limit ∧
    (∀ e, sequences.foldlM recordOutcome { cursor with revealCursor } = .error e → ¬Disagrees e) ∧
      ∀ transaction, sequences.foldlM recordOutcome { cursor with revealCursor } = .ok transaction →
        LedgerOk ledger { transaction with exhausted := transaction.revealCursor.isExhausted } ∧
          transaction.emittedOutcomes =
            cursor.emittedOutcomes + pageRanks ledger.revealFamily cursor.revealCursor limit := by
  obtain ⟨hreveal, hrank, hsequences⟩ :=
    reveal_nextPage_eq_ok hfamily hcursor.reveal hlimit hpage
  have hlength := hsequences.length_eq
  rw [length_range'] at hlength
  rw [← hcursor.emitted_eq] at hsequences
  have htallied : Tallied ledger.revealFamily { cursor with revealCursor } :=
    ⟨hcursor.tallied.canonical, hcursor.tallied.value_eq⟩
  obtain ⟨herror, hok⟩ := foldlM_recordOutcome htallied hsequences
  refine ⟨hlength.symm, fun e he => ?_, fun transaction h => ?_⟩
  · rw [herror e he]
    exact id
  · obtain ⟨htallied, hemitted, -, hsame⟩ := hok transaction h
    refine ⟨⟨hsame ▸ hreveal, ?_, ⟨htallied.canonical, htallied.value_eq⟩, rfl⟩, hemitted⟩
    dsimp only at hemitted hsame ⊢
    rw [hemitted, hsame, hrank, hcursor.emitted_eq]

/-- A transaction that has come to the end passes both checks. -/
theorem LedgerOk.complete (hcursor : LedgerOk ledger cursor)
    (hexhausted : cursor.exhausted = true) :
    cursor.emittedOutcomes = ledger.revealFamily.totalSequences ∧
      cursor.accumulatedProbability = .one := by
  rw [hcursor.exhausted_eq, hcursor.reveal.exhausted_iff, ← hcursor.emitted_eq] at hexhausted
  exact ⟨hexhausted, accumulated_eq_one hfamily hcursor.tallied hexhausted⟩

theorem ledger_nextPage_error {guard : LedgerGuard}
    {e : Pc4ObservationRevealLedgerPageError} (hcursor : LedgerOk ledger cursor) (hlimit : 0 < limit)
    (h : ledger.nextPage guard cursor limit = .error e) : ¬Disagrees e := by
  rw [Pc4ObservationRevealLedgerFamily.nextPage, bind_eq_error] at h
  obtain h | ⟨_, -, h⟩ := h
  · exact (refuseIf_eq_error.mp h).2 ▸ id
  rw [bind_eq_error] at h
  obtain h | ⟨_, -, h⟩ := h
  · exact (refuseIf_eq_error.mp h).2 ▸ id
  rw [bind_eq_error] at h
  obtain h | ⟨_, -, h⟩ := h
  · exact checkGuard_eq_error h
  dsimp only at h
  split at h
  · exact absurd h (by simp [pure, Except.pure])
  rw [bind_eq_error] at h
  obtain h | ⟨⟨sequences, revealCursor⟩, hpage, h⟩ := h
  · obtain ⟨inner, -, rfl⟩ := mapError_eq_error.mp h
    exact not_disagrees_mapRevealError inner
  obtain ⟨-, herror, hrecorded⟩ := recorded_ok hfamily hcursor hlimit (mapError_eq_ok.mp hpage)
  rw [bind_eq_error] at h
  obtain h | ⟨transaction, htransaction, h⟩ := h
  · exact herror e h
  have hok := (hrecorded transaction htransaction).1
  rw [bind_eq_error] at h
  obtain h | ⟨_, -, h⟩ := h
  · obtain ⟨⟨hexhausted, hne⟩, -⟩ := refuseIf_eq_error.mp h
    exact absurd (hok.complete hfamily hexhausted).1 hne
  rw [bind_eq_error] at h
  obtain h | ⟨_, -, h⟩ := h
  · obtain ⟨⟨hexhausted, hne⟩, -⟩ := refuseIf_eq_error.mp h
    exact absurd (hok.complete hfamily hexhausted).2 hne
  rw [bind_eq_error] at h
  obtain h | ⟨_, -, h⟩ := h
  · exact checkGuard_eq_error h
  · exact absurd h (by simp [pure, Except.pure])

theorem ledger_nextPage_ok {cursor' : Pc4ObservationRevealLedgerCursor} {guard : LedgerGuard}
    {page : Pc4ObservationRevealLedgerPage} (hcursor : LedgerOk ledger cursor) (hlimit : 0 < limit)
    (h : ledger.nextPage guard cursor limit = .ok (page, cursor')) :
    LedgerOk ledger cursor' ∧
      page.outcomes.length = pageRanks ledger.revealFamily cursor.revealCursor limit ∧
      cursor'.emittedOutcomes = cursor.emittedOutcomes + page.outcomes.length ∧
      (page.exhausted = true →
        page.completeProbability = some .one ∧ cursor'.accumulatedProbability = .one) := by
  simp only [Pc4ObservationRevealLedgerFamily.nextPage, bind_eq_ok] at h
  obtain ⟨_, -, _, -, _, -, h⟩ := h
  split at h
  · rename_i hexhausted
    cases h
    obtain ⟨hall, hone⟩ := hcursor.complete hfamily hexhausted
    have hnone : pageRanks ledger.revealFamily cursor.revealCursor limit = 0 := by
      rw [pageRanks, ← hcursor.emitted_eq, hall, Nat.sub_self, Nat.min_zero]
    exact ⟨hcursor, hnone.symm, rfl, fun _ => ⟨congrArg some hone, hone⟩⟩
  · simp only [bind_eq_ok] at h
    obtain ⟨⟨sequences, revealCursor⟩, hpage, transaction, htransaction, _, -, _, -, _, -, h⟩ := h
    cases h
    obtain ⟨hlength, -, hrecorded⟩ := recorded_ok hfamily hcursor hlimit (mapError_eq_ok.mp hpage)
    obtain ⟨hok, hemitted⟩ := hrecorded _ htransaction
    refine ⟨hok, hlength, hlength ▸ hemitted, fun hexhausted => ?_⟩
    have hone := (hok.complete hfamily hexhausted).2
    dsimp only at hexhausted hone ⊢
    rw [if_pos hexhausted, hone]
    exact ⟨rfl, rfl⟩

theorem Ledgered.ok {limits : List Nat} (h : Ledgered ledger limits cursor) :
    LedgerOk ledger cursor := by
  induction h with
  | initial => exact ledgerOk_initial hfamily
  | page guard limit hlimit _ hpage ih => exact (ledger_nextPage_ok hfamily ih hlimit hpage).1

theorem Ledgered.emitted {limits : List Nat} (h : Ledgered ledger limits cursor) :
    cursor.emittedOutcomes = min limits.sum ledger.revealFamily.totalSequences := by
  induction h with
  | initial => exact (Nat.zero_min _).symm
  | page guard limit hlimit hcursor hpage ih =>
    have hok := hcursor.ok hfamily
    obtain ⟨-, hlength, hemitted, -⟩ := ledger_nextPage_ok hfamily hok hlimit hpage
    rw [hemitted, hlength, pageRanks, ← hok.emitted_eq, ih, sum_cons]
    omega

omit hfamily in
theorem Ledgered.limits_pos {limits : List Nat} (h : Ledgered ledger limits cursor) :
    ∀ limit ∈ limits, 0 < limit := by
  induction h with
  | initial => simp
  | page guard limit hlimit _ _ ih => exact forall_mem_cons.mpr ⟨hlimit, ih⟩

theorem Ledgered.pagedTo {limits : List Nat} (h : Ledgered ledger limits cursor) :
    PagedTo ledger.revealFamily.totalSequences limits cursor.emittedOutcomes
      cursor.revealCursor.nextRank cursor.exhausted := by
  have hok := h.ok hfamily
  have hemitted := h.emitted hfamily
  have hexhausted : cursor.exhausted = true ↔ ledger.revealFamily.totalSequences ≤ limits.sum := by
    rw [hok.exhausted_eq, hok.reveal.exhausted_iff, ← hok.emitted_eq, hemitted]
    omega
  exact ⟨hemitted, hok.emitted_eq.symm, hexhausted, fun hpages =>
    hexhausted.mpr (hpages.trans (length_le_sum_of_one_le _ h.limits_pos))⟩

theorem ledgerExact : LedgerExact ledger := by
  intro limits cursor hcursor
  have hok := hcursor.ok hfamily
  refine ⟨hcursor.pagedTo hfamily, fun hexhausted => (hok.complete hfamily hexhausted).2,
    fun guard limit hlimit => ⟨fun _ he => ledger_nextPage_error hfamily hok hlimit he,
      fun _ _ h => ?_, fun _ _ h => (ledger_nextPage_ok hfamily hok hlimit h).2.2.2⟩⟩
  rw [(ledger_nextPage_ok hfamily hok hlimit h).2.1, pageRanks, hok.emitted_eq]

end

end

/-- What a prepared bag family reveals, paged by itself or through a ledger; a ledger over a finite
    family comes out even as well. Each page has what was asked for or what is left, so the family is
    exhausted after at most as many pages as it has sequences. -/
theorem reveals_exact {source : Pc4BagState} {hiddenDraws : Nat} {budgets : Pc4BagRevealBudgets}
    {cancelled : Nat → Bool} {token : Nat} {family : Pc4BagRevealFamily}
    (h : preparePc4BagRevealFamily source hiddenDraws budgets cancelled token = .ok family) :
    (∀ limits sequences last, Pages family family.cursor limits sequences last →
      PagedTo family.totalSequences limits sequences.length last.nextRank last.exhausted ∧
      (∀ guard limit page next, 0 < limit → family.nextPage guard last limit = .ok (page, next) →
        page.length = min limit (family.totalSequences - last.nextRank) ∧
          next.nextRank = last.nextRank + page.length) ∧
      (last.exhausted = true → ListsDraws source hiddenDraws sequences)) ∧
    ∀ ledger : Pc4ObservationRevealLedgerFamily,
      (ledger.revealFamily = .bag family ∨ ∃ queues pageLimit allocatedPiecesLimit,
        ledger.revealFamily = .finite queues pageLimit allocatedPiecesLimit) →
      LedgerExact ledger := by
  obtain ⟨hfamily, rfl, rfl⟩ := familyOk_of_prepare h
  refine ⟨fun limits sequences last hpages => ⟨hpages.pagedTo hfamily, ?_,
    fun hexhausted => hpages.listsDraws hfamily hexhausted⟩, ?_⟩
  · intro guard limit page next hlimit hpage
    have hcursor := (hpages.revealed hfamily (cursorOk_initial hfamily)).1
    obtain ⟨-, hrank, hrevealed⟩ := nextPage_eq_ok hfamily hcursor hpage
    have hlength := hrevealed.length_eq
    rw [length_range'] at hlength
    exact ⟨hlength.symm, hlength ▸ hrank⟩
  rintro ledger (hledger | ⟨queues, pageLimit, allocatedPiecesLimit, hledger⟩)
  · exact ledgerExact (hledger ▸ hfamily)
  · exact ledgerExact (hledger ▸ trivial)

/-- Two `I` and an `O`, of which one `I` is left. -/
def shortBag : Pc4BagState where
  profile := ⟨fun piece => if piece = .I then 2 else if piece = .O then 1 else 0, 3, rfl,
    by decide, by decide⟩
  remainder := fun piece => if piece = .I then 1 else 0
  remainderTotal := 1
  epoch := 0
  remainder_le := by decide
  remainderTotal_eq := rfl

def shortBudgets : Pc4BagRevealBudgets := ⟨8, 64, 64, 8, 64, 64⟩

def shortLedger (family : Pc4BagRevealFamily) : Pc4ObservationRevealLedgerFamily := ⟨.bag family, 8, 1⟩

/-- A guard that never stops. -/
def openGuard : LedgerGuard := ⟨⟨false, true⟩, ⟨false, fun _ => false, false⟩, ⟨false, true⟩⟩

/-- The family of two draws from the short bag, paged by ones and twos, alone and through a ledger. -/
def shortPages : Option ((List (List PieceKind × Pc4ExactProbability) × Bool) × Bool) :=
  (preparePc4BagRevealFamily shortBag 2 shortBudgets (fun _ => false) 0).toOption.bind fun family =>
  (family.nextPage (fun _ => false) family.cursor 1).toOption.bind fun first =>
  (family.nextPage (fun _ => false) first.2 2).toOption.bind fun second =>
  ((shortLedger family).nextPage openGuard (shortLedger family).cursor 1).toOption.bind fun one =>
  ((shortLedger family).nextPage openGuard one.2 2).toOption.map fun two =>
    (((first.1 ++ second.1).map fun sequence => (sequence.pieces, sequence.probability),
      second.2.exhausted), two.2.exhausted)

/-- The second of two draws is from a refilled bag. Pages of one and of two sequences come to the end, and
    so does the ledger. -/
theorem reveals_exact_shortBag : ∃ family sequences last cursor,
    preparePc4BagRevealFamily shortBag 2 shortBudgets (fun _ => false) 0 = .ok family ∧
      Pages family family.cursor [1, 2] sequences last ∧
      sequences.map (fun sequence => (sequence.pieces, sequence.probability)) =
        [([.I, .I], ⟨2, 3⟩), ([.I, .O], ⟨1, 3⟩)] ∧
      PagedTo family.totalSequences [1, 2] sequences.length last.nextRank last.exhausted ∧
      last.exhausted = true ∧ ListsDraws shortBag 2 sequences ∧
      Ledgered (shortLedger family) [2, 1] cursor ∧ cursor.exhausted = true ∧
      cursor.accumulatedProbability = .one := by
  have hrun : shortPages = some (([([.I, .I], ⟨2, 3⟩), ([.I, .O], ⟨1, 3⟩)], true), true) := by
    decide +kernel
  simp only [shortPages, Option.bind_eq_some_iff, Option.map_eq_some_iff, toOption_eq_some,
    Prod.mk.injEq] at hrun
  obtain ⟨family, hfamily, first, hfirst, second, hsecond, one, hone, two, htwo,
    ⟨hpieces, hexhausted⟩, hledger⟩ := hrun
  obtain ⟨hpaged, hledgers⟩ := reveals_exact hfamily
  have hpages : Pages family family.cursor [1, 2] (first.1 ++ (second.1 ++ [])) second.2 :=
    .page _ 1 (by decide) hfirst (.page _ 2 (by decide) hsecond (.done _))
  rw [List.append_nil] at hpages
  have hledgered : Ledgered (shortLedger family) [2, 1] two.2 :=
    .page _ 2 (by decide) (.page _ 1 (by decide) .initial hone) htwo
  obtain ⟨hto, -, hlists⟩ := hpaged _ _ _ hpages
  exact ⟨family, _, _, _, hfamily, hpages, hpieces, hto, hexhausted, hlists hexhausted, hledgered, hledger,
    (hledgers _ (.inl rfl) _ _ hledgered).2.1 hledger⟩

end Clearra.Proof.Tablebase
