import Clearra.Supply.MultisetKey

/-!
# The one-slot hold automaton (`clearra-supply`, `execution_automaton/`)

`SupplyExecutionAutomaton::transition` is the only place in the code base where a queue and a
hold slot are advanced together; everything else — the packing projection, the build-order
product, the score batch — is an optimisation of running it. So it is embedded with every check
it makes, in the order it makes them, and with the evidence record it returns, and the *runs* of
it (`HoldRun`) are the specification the optimisations are compared with.

The cursor is a `u16` and every advance of it is checked: that bounds the runs on a very long queue,
and the closed-form projection does not see it.
-/

namespace Clearra.Supply

inductive HoldPolicy where
  | forbidden | allowed | required
  deriving DecidableEq

inductive PieceSourceKind where
  | fixedQueue | bagUniverse | observedWindow | materializedPatternUniverse
  deriving DecidableEq

inductive QueueObservationPolicy where
  | fullQueueOracle | visibleSeven
  deriving DecidableEq

structure SupplyObservationIdentity where
  policy : QueueObservationPolicy
  observationId : UInt64
  deriving DecidableEq

/-- `SupplyObservationIdentity::full_queue_oracle()`. -/
def SupplyObservationIdentity.fullQueueOracle : SupplyObservationIdentity :=
  ⟨.fullQueueOracle, 0⟩

inductive SupplyHoldState where
  | disabled
  | empty
  | occupied (piece : PieceKind)
  deriving DecidableEq

inductive SupplyBranchKind where
  | current | swapHeld | storeCurrent
  deriving DecidableEq

inductive SupplyExecutionError where
  | emptyBagProfile | invalidHoldState | invalidBagRemainder | holdForbidden | holdRequired
  | missingHeldPiece | holdSlotOccupied | missingNextPiece | cursorExhausted | bagEpochExhausted
  deriving DecidableEq

structure SupplyExecutionState where
  pieceSourceId : UInt64
  sourceKind : PieceSourceKind
  cursor : UInt16
  holdPiece : Option PieceKind
  holdEmpty : Bool
  holdPolicy : HoldPolicy
  bagEpoch : UInt16
  bagRemainderKey : UInt64
  observation : SupplyObservationIdentity
  provenance : UInt64
  deriving DecidableEq

namespace SupplyExecutionState

/-- `with_contract(..)`: `hold_empty` is computed, never passed. -/
def withContract (pieceSourceId : UInt64) (sourceKind : PieceSourceKind) (cursor : UInt16)
    (holdPiece : Option PieceKind) (holdPolicy : HoldPolicy) (bagEpoch : UInt16)
    (bagRemainderKey : UInt64) (observation : SupplyObservationIdentity)
    (provenance : UInt64) : SupplyExecutionState :=
  { pieceSourceId, sourceKind, cursor, holdPiece, holdEmpty := holdPiece.isNone, holdPolicy,
    bagEpoch, bagRemainderKey, observation, provenance }

def holdState (s : SupplyExecutionState) : SupplyHoldState :=
  match s.holdPolicy, s.holdPiece with
  | .forbidden, _ => .disabled
  | _, some piece => .occupied piece
  | _, none => .empty

def validate (s : SupplyExecutionState) : Except SupplyExecutionError Unit :=
  if s.holdEmpty ≠ s.holdPiece.isNone ∨ (s.holdPolicy = .forbidden ∧ s.holdPiece.isSome) then
    .error .invalidHoldState
  else
    .ok ()

/-- `set_hold_piece(state, hold_piece)`. -/
def setHoldPiece (s : SupplyExecutionState) (holdPiece : Option PieceKind) :
    SupplyExecutionState :=
  { s with holdPiece, holdEmpty := holdPiece.isNone }

end SupplyExecutionState

structure SupplyTransitionEvidence where
  usedPiece : PieceKind
  queueCurrentPiece : PieceKind
  queueNextPiece : Option PieceKind
  queueAdvances : Nat
  cursorBefore : UInt16
  cursorAfter : UInt16
  holdBefore : SupplyHoldState
  holdAfter : SupplyHoldState
  branchKind : SupplyBranchKind
  pieceSourceId : UInt64
  sourceKind : PieceSourceKind
  observation : SupplyObservationIdentity
  provenance : UInt64
  deriving DecidableEq

structure SupplyExecutionStep where
  usedPiece : PieceKind
  nextState : SupplyExecutionState
  evidence : SupplyTransitionEvidence
  deriving DecidableEq

/-- `step(..)`: the one constructor of a step, which is where the evidence is filled in. -/
def step (before nextState : SupplyExecutionState) (usedPiece queueCurrentPiece : PieceKind)
    (queueNextPiece : Option PieceKind) (queueAdvances : Nat) (branchKind : SupplyBranchKind) :
    SupplyExecutionStep where
  usedPiece := usedPiece
  nextState := nextState
  evidence :=
    { usedPiece, queueCurrentPiece, queueNextPiece, queueAdvances
      cursorBefore := before.cursor
      cursorAfter := nextState.cursor
      holdBefore := before.holdState
      holdAfter := nextState.holdState
      branchKind
      pieceSourceId := before.pieceSourceId
      sourceKind := before.sourceKind
      observation := before.observation
      provenance := before.provenance }

/-- `checked_advance(cursor, amount)`: `u16::checked_add`. -/
def checkedAdvance (cursor amount : UInt16) : Except SupplyExecutionError UInt16 :=
  if cursor.toNat + amount.toNat < 2 ^ 16 then .ok (cursor + amount) else .error .cursorExhausted

/-- `SupplyExecutionAutomaton::transition`. The receiver's `full_bag` is not read here. -/
def transition (state : SupplyExecutionState) (branchKind : SupplyBranchKind)
    (currentPiece : PieceKind) (nextPiece : Option PieceKind) :
    Except SupplyExecutionError SupplyExecutionStep := do
  state.validate
  match branchKind with
  | .current =>
    if state.holdPolicy = .required then throw .holdRequired
    let cursor ← checkedAdvance state.cursor 1
    return step state { state with cursor } currentPiece currentPiece none 1 branchKind
  | .swapHeld =>
    if state.holdPolicy = .forbidden then throw .holdForbidden
    match state.holdPiece with
    | none => throw .missingHeldPiece
    | some held =>
      let cursor ← checkedAdvance state.cursor 1
      let next := { state with cursor }.setHoldPiece (some currentPiece)
      return step state next held currentPiece none 1 branchKind
  | .storeCurrent =>
    if state.holdPolicy = .forbidden then throw .holdForbidden
    if state.holdPiece.isSome then throw .holdSlotOccupied
    match nextPiece with
    | none => throw .missingNextPiece
    | some nextPiece =>
      let cursor ← checkedAdvance state.cursor 2
      let next := { state with cursor }.setHoldPiece (some currentPiece)
      return step state next nextPiece currentPiece (some nextPiece) 2 branchKind

/-- The runs of the automaton on a concrete queue: at every step the piece at the cursor is the
    current piece, the one after it (if the queue has one) the next piece, and any branch the
    automaton accepts may be taken. The index list is the pieces placed, in order. -/
inductive HoldRun (queue : List PieceKind) :
    SupplyExecutionState → List PieceKind → SupplyExecutionState → Prop
  | nil (s : SupplyExecutionState) : HoldRun queue s [] s
  | cons {s s' : SupplyExecutionState} {branch : SupplyBranchKind} {current : PieceKind}
      {taken : SupplyExecutionStep} {placed : List PieceKind}
      (atCursor : queue[s.cursor.toNat]? = some current)
      (accepted : transition s branch current queue[s.cursor.toNat + 1]? = .ok taken)
      (rest : HoldRun queue taken.nextState placed s') :
      HoldRun queue s (taken.usedPiece :: placed) s'

end Clearra.Supply
