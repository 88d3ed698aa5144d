import Clearra.Tablebase.BagReveal

/-!
# The ledger of reveals (`finite_queue_family.rs`, `observation_reveal_source.rs`,
`observation_reveal_ledger.rs`)

A source of reveals is a bag family, a finite family of equally likely queues, or one fixed outcome.
The ledger pages through a source and adds up the probabilities; at the end it insists that every
rank has come and that the sum is one.

A call that fails leaves its cursor as it was.
-/

namespace Clearra.Tablebase

open Lib

/-! ## Finite families -/

/-- `readQueue` is the reader of the host; two families never have one token. -/
structure Pc4FiniteQueueFamily where
  token : Nat
  readQueue : Nat → Except Pc4FiniteQueueReadError (List PieceKind)
  count : Nat
  sequencePieces : Nat
  count_pos : 0 < count

structure FiniteQueueCursor where
  family : Pc4FiniteQueueFamily
  nextOrdinal : Nat

structure FiniteQueueOutcome where
  rank : Nat
  pieces : List PieceKind
  probability : Pc4ExactProbability

namespace Pc4FiniteQueueFamily

variable (family : Pc4FiniteQueueFamily) (cancelled : Nat → Bool)

def cursor : FiniteQueueCursor := ⟨family, 0⟩

/-- The queue of an ordinal, if it has the right length. -/
def readOutcome (ordinal : Nat) : Paging FiniteQueueOutcome := fun work =>
  match family.readQueue ordinal with
  | .error e => .error (.finiteQueue e)
  | .ok pieces =>
    if pieces.length ≠ family.sequencePieces then .error (.finiteQueue .queueLengthMismatch)
    else .ok (⟨ordinal, pieces, .uniform family.count⟩, work)

def readLoop : Nat → Nat → Paging (List FiniteQueueOutcome)
  | 0, _ => pure []
  | count + 1, ordinal => do
    checkPageGuard cancelled
    let outcome ← family.readOutcome ordinal
    let outcomes ← readLoop count (ordinal + 1)
    pure (outcome :: outcomes)

def nextPage (cursor : FiniteQueueCursor) (limit pageLimit allocatedPiecesLimit : Nat) :
    Except Pc4BagRevealPageError (List FiniteQueueOutcome × FiniteQueueCursor) := do
  refuseIf (family.token ≠ cursor.family.token) .cursorMismatch
  let (_, work) ← checkPageGuard cancelled ⟨0, 0⟩
  refuseIf (limit > pageLimit) (.budgetExceeded .pageSequences pageLimit limit)
  let count := min limit (family.count - cursor.nextOrdinal)
  refuseIf (count * family.sequencePieces > usizeMax)
    (.budgetExceeded .allocatedPieces allocatedPiecesLimit usizeMax)
  refuseIf (count * family.sequencePieces > allocatedPiecesLimit)
    (.budgetExceeded .allocatedPieces allocatedPiecesLimit (count * family.sequencePieces))
  let (outcomes, work) ← family.readLoop cancelled count cursor.nextOrdinal work
  let (_, _) ← checkPageGuard cancelled work
  pure (outcomes, { cursor with nextOrdinal := cursor.nextOrdinal + count })

end Pc4FiniteQueueFamily

/-! ## Sources of reveals -/

inductive ObservationRevealFamily where
  | finite (family : Pc4FiniteQueueFamily) (pageLimit allocatedPiecesLimit : Nat)
  | fixed (token pageLimit : Nat)
  | bag (family : Pc4BagRevealFamily)

inductive ObservationRevealCursor where
  | finite (cursor : FiniteQueueCursor)
  | fixed (token : Nat) (consumed : Bool)
  | bag (cursor : Pc4BagRevealCursor)

/-- A sequence of any source, as `into_parts` gives it. -/
structure ObservationRevealSequence where
  rank : Nat
  pieces : List PieceKind
  probability : Pc4ExactProbability
  terminalState : Option Pc4BagState

def finiteSequence (outcome : FiniteQueueOutcome) : ObservationRevealSequence :=
  ⟨outcome.rank, outcome.pieces, outcome.probability, none⟩

def fixedSequence : ObservationRevealSequence := ⟨0, [], .one, none⟩

def bagSequence (sequence : Pc4BagRevealSequence) : ObservationRevealSequence :=
  ⟨sequence.rank, sequence.pieces, sequence.probability, some sequence.terminalState⟩

/-- What a guard answers before, while and after a source is paged. -/
structure RevealGuard where
  start : Bool
  during : Nat → Bool
  finish : Bool

namespace ObservationRevealCursor

def nextRank : ObservationRevealCursor → Nat
  | finite cursor => cursor.nextOrdinal
  | fixed _ consumed => consumed.toNat
  | bag cursor => cursor.nextRank

def isExhausted : ObservationRevealCursor → Bool
  | finite cursor => cursor.nextOrdinal == cursor.family.count
  | fixed _ consumed => consumed
  | bag cursor => cursor.exhausted

end ObservationRevealCursor

namespace ObservationRevealFamily

def totalSequences : ObservationRevealFamily → Nat
  | finite family _ _ => family.count
  | fixed _ _ => 1
  | bag family => family.totalSequences

def cursor : ObservationRevealFamily → ObservationRevealCursor
  | finite family _ _ => .finite family.cursor
  | fixed token _ => .fixed token false
  | bag family => .bag family.cursor

/-- The page of the source the cursor belongs to. -/
def sourcePage (cancelled : Nat → Bool) (limit : Nat) :
    ObservationRevealFamily → ObservationRevealCursor →
      Except Pc4BagRevealPageError (List ObservationRevealSequence × ObservationRevealCursor)
  | finite family pageLimit allocatedPiecesLimit, .finite cursor => do
    let (page, cursor) ← family.nextPage cancelled cursor limit pageLimit allocatedPiecesLimit
    pure (page.map finiteSequence, .finite cursor)
  | fixed token pageLimit, .fixed cursorToken consumed => do
    refuseIf (token ≠ cursorToken) .cursorMismatch
    refuseIf (limit > pageLimit) (.budgetExceeded .pageSequences pageLimit limit)
    pure (if consumed then [] else [fixedSequence], .fixed cursorToken true)
  | bag family, .bag cursor => do
    let (page, cursor) ← family.nextPage cancelled cursor limit
    pure (page.map bagSequence, .bag cursor)
  | _, _ => .error .cursorMismatch

def nextPage (family : ObservationRevealFamily) (guard : RevealGuard)
    (cursor : ObservationRevealCursor) (limit : Nat) :
    Except Pc4BagRevealPageError (List ObservationRevealSequence × ObservationRevealCursor) := do
  refuseIf guard.start .cancelled
  let result ← sourcePage guard.during limit family cursor
  refuseIf guard.finish .cancelled
  pure result

end ObservationRevealFamily

/-! ## The ledger -/

inductive Pc4ObservationRevealLedgerPageError where
  | cancelled
  | staleSnapshot
  | cursorMismatch
  | pageLimitExceeded (limit attempted : Nat)
  | nonCanonicalRevealRank (expected actual : Nat)
  | outcomeCountMismatch (expected actual : Nat)
  | probabilityOverflow
  | probabilityNotNormalized (actual : Pc4ExactProbability)
  | reveal (e : Pc4BagRevealPageError)
  deriving DecidableEq

structure Pc4ObservationRevealLedgerCursor where
  familyToken : Nat
  revealCursor : ObservationRevealCursor
  emittedOutcomes : Nat
  accumulatedProbability : Pc4ExactProbability
  exhausted : Bool

structure Pc4ObservationRevealLedgerPage where
  outcomes : List ObservationRevealSequence
  completeProbability : Option Pc4ExactProbability
  exhausted : Bool

structure Pc4ObservationRevealLedgerFamily where
  revealFamily : ObservationRevealFamily
  pageLimit : Nat
  cursorToken : Nat

/-- What a guard answers at one point: whether to stop, whether the snapshot is the current one. -/
structure GuardAnswer where
  cancelled : Bool
  current : Bool

structure LedgerGuard where
  before : GuardAnswer
  reveal : RevealGuard
  after : GuardAnswer

def checkGuard (answer : GuardAnswer) : Except Pc4ObservationRevealLedgerPageError Unit := do
  refuseIf answer.cancelled .cancelled
  refuseIf (answer.current = false) .staleSnapshot

def mapRevealError : Pc4BagRevealPageError → Pc4ObservationRevealLedgerPageError
  | .cancelled => .cancelled
  | e => .reveal e

/-- One outcome more: its rank is the next one, its probability is added. -/
def recordOutcome (cursor : Pc4ObservationRevealLedgerCursor) (sequence : ObservationRevealSequence) :
    Except Pc4ObservationRevealLedgerPageError Pc4ObservationRevealLedgerCursor := do
  refuseIf (sequence.rank ≠ cursor.emittedOutcomes)
    (.nonCanonicalRevealRank cursor.emittedOutcomes sequence.rank)
  match cursor.accumulatedProbability.checkedAdd sequence.probability with
  | none => .error .probabilityOverflow
  | some accumulatedProbability =>
    match checkedAdd128 cursor.emittedOutcomes 1 with
    | none => .error .probabilityOverflow
    | some emittedOutcomes => pure { cursor with accumulatedProbability, emittedOutcomes }

namespace Pc4ObservationRevealLedgerFamily

variable (family : Pc4ObservationRevealLedgerFamily)

def cursor : Pc4ObservationRevealLedgerCursor :=
  ⟨family.cursorToken, family.revealFamily.cursor, 0, .zero, false⟩

def nextPage (guard : LedgerGuard) (cursor : Pc4ObservationRevealLedgerCursor) (limit : Nat) :
    Except Pc4ObservationRevealLedgerPageError
      (Pc4ObservationRevealLedgerPage × Pc4ObservationRevealLedgerCursor) := do
  refuseIf (cursor.familyToken ≠ family.cursorToken) .cursorMismatch
  refuseIf (limit > family.pageLimit) (.pageLimitExceeded family.pageLimit limit)
  checkGuard guard.before
  if cursor.exhausted then pure (⟨[], some cursor.accumulatedProbability, true⟩, cursor)
  else do
    let (sequences, revealCursor) ←
      (family.revealFamily.nextPage guard.reveal cursor.revealCursor limit).mapError mapRevealError
    let transaction ← sequences.foldlM recordOutcome { cursor with revealCursor }
    let exhausted := transaction.revealCursor.isExhausted
    refuseIf (exhausted ∧ transaction.emittedOutcomes ≠ family.revealFamily.totalSequences)
      (.outcomeCountMismatch family.revealFamily.totalSequences transaction.emittedOutcomes)
    refuseIf (exhausted ∧ transaction.accumulatedProbability ≠ .one)
      (.probabilityNotNormalized transaction.accumulatedProbability)
    checkGuard guard.after
    pure (⟨sequences, if exhausted then some transaction.accumulatedProbability else none, exhausted⟩,
      { transaction with exhausted })

end Pc4ObservationRevealLedgerFamily

end Clearra.Tablebase
