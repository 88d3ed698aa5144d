import Clearra.Supply.BagAutomaton
import Clearra.Supply.PatternUniverse

/-!
# The union of the patterns of a universe (`pattern_universe/compact_pattern_union.rs`)

Which pieces can be placed, in which order, by some queue of a compact universe and some use of the
hold slot? The queues are not enumerated: a frontier is the set of the places all of them can be at,
where a place is how far the draws have come and what is held. `advance` goes on by one placed piece,
`merge` joins two frontiers.

A guard that may ask to stop is a function of how often it was asked in the call; a loop asks at the
start of each round, so that the number of a question is known. Memory is taken to be there, and
families of frontiers are told apart by a number.
-/

namespace Clearra.Supply

open Lib

structure CompactPatternUnionLimits where
  sourcePieces : Nat
  frontierStates : Nat
  transitionAttempts : Nat

inductive CompactPatternUnionError where
  | cancelled
  | incompleteSource
  | inconsistentSource
  | unsupportedInitialState
  | unsupportedObservation
  | sourcePieceLimit (limit attempted : Nat)
  | frontierStateLimit (limit attempted : Nat)
  | transitionLimit (limit attempted : Nat)
  | foreignFrontier
  | placementDepthMismatch
  | counterOverflow
  | supply (e : SupplyExecutionError)
  deriving DecidableEq

/-- A draw of `draws` pieces out of a set. -/
structure DrawAtom where
  choices : UsedMask
  draws : Nat
  deriving DecidableEq

structure DrawState where
  atom : Nat
  used : Nat
  remaining : UsedMask
  consumed : Nat
  deriving DecidableEq

structure PlacementState where
  draw : DrawState
  held : Option PieceKind
  deriving DecidableEq

namespace PlacementState

/-- The fields in the order the derived `Ord` compares them. -/
def ordKey (s : PlacementState) : List Nat :=
  [s.draw.atom, s.draw.used, s.draw.remaining.toNat, s.draw.consumed, holdOrd s.held]

theorem ordKey_injective : Function.Injective ordKey := by
  rintro ⟨⟨a, u, r, c⟩, h⟩ ⟨⟨a', u', r', c'⟩, h'⟩ heq
  simp only [ordKey, List.cons.injEq] at heq
  obtain ⟨rfl, rfl, hr, rfl, hh, -⟩ := heq
  rw [BitVec.eq_of_toNat_eq hr, holdOrd_injective hh]

instance : LinearOrder PlacementState := LinearOrder.lift' ordKey ordKey_injective

end PlacementState

structure CompactPatternUnionFrontier where
  owner : Nat
  states : List PlacementState
  placedPieces : Nat
  deriving DecidableEq

structure CompactPatternUnionLanguage where
  owner : Nat
  atoms : List DrawAtom
  sequencePieces : Nat
  sourcePatternCount : Nat
  initial : SupplyExecutionState
  limits : CompactPatternUnionLimits

/-- `check_cancelled`. -/
def checkCancelled (stop : Bool) : Except CompactPatternUnionError Unit :=
  refuseIf (stop = true) .cancelled

/-- `usize::checked_mul`. -/
def checkedCount (n : Nat) : Except CompactPatternUnionError Nat :=
  if n ≤ usizeMax then .ok n else .error .counterOverflow

/-! ## Compiling -/

def permutationCount (choices draws : Nat) : Except CompactPatternUnionError Nat :=
  (List.range draws).foldlM (fun count index => checkedCount (count * (choices - index))) 1

/-- The choices of an atom as a mask, if no piece comes twice. -/
def choiceMask (pieces : List PieceKind) : Except CompactPatternUnionError UsedMask :=
  pieces.foldlM (fun choices piece => do
    refuseIf (choices &&& pieceBit piece ≠ 0) .inconsistentSource
    pure (choices ||| pieceBit piece)) 0

def compileAtom (atom : FactorizedPatternAtom) : Except CompactPatternUnionError DrawAtom := do
  let choices ← choiceMask atom.choices
  let choiceCount := Executor.countOnes choices
  refuseIf (atom.drawCount = 0 ∨ atom.drawCount > choiceCount) .inconsistentSource
  let variants ← permutationCount choiceCount atom.drawCount
  refuseIf (variants ≠ atom.variantCount) .inconsistentSource
  pure ⟨choices, atom.drawCount⟩

/-- Whole bags, and what is left. -/
def bagAtoms : Nat → List DrawAtom
  | remaining + 8 => ⟨0x7f#8, 7⟩ :: bagAtoms (remaining + 1)
  | 0 => []
  | remaining => [⟨0x7f#8, remaining⟩]

/-- One atom of the final count: the product so far, and the length. -/
def countAtom (counted : Nat × Nat) (atom : DrawAtom) :
    Except CompactPatternUnionError (Nat × Nat) := do
  let variants ← permutationCount (Executor.countOnes atom.choices) atom.draws
  let count ← checkedCount (counted.1 * variants)
  pure (count, counted.2 + atom.draws)

/-- A loop over a list that asks the guard before each element, from question `start` on. -/
def guardedMap {α β : Type} (cancelled : Nat → Bool) (f : α → Except CompactPatternUnionError β)
    (start : Nat) (l : List α) : Except CompactPatternUnionError (List β) :=
  (l.zipIdx start).mapM fun (a, question) => do
    checkCancelled (cancelled question)
    f a

def guardedFold {α β : Type} (cancelled : Nat → Bool)
    (f : β → α → Except CompactPatternUnionError β) (start : Nat) (b : β) (l : List α) :
    Except CompactPatternUnionError β :=
  (l.zipIdx start).foldlM (fun b (a, question) => do
    checkCancelled (cancelled question)
    f b a) b

/-- `compile_atoms`, after the first question of `prepare`. -/
def compileAtoms (source : UniformCompactPatternSource) (limits : CompactPatternUnionLimits)
    (cancelled : Nat → Bool) : Except CompactPatternUnionError (List DrawAtom × Nat × Nat) := do
  let (full, visible, count, atomCount) := match source with
    | .standard7Bag sequenceLen patternCount =>
      (sequenceLen, sequenceLen, patternCount, (sequenceLen + 6) / 7)
    | .factorizedExpression shape =>
      (shape.fullSequenceLen, shape.visibleSequenceLen, shape.patternCount, shape.atoms.length)
  let limit := min limits.sourcePieces 65535
  refuseIf (full > limit) (.sourcePieceLimit limit full)
  refuseIf (full = 0 ∨ visible = 0 ∨ visible > full ∨ atomCount = 0 ∨ atomCount > full)
    .inconsistentSource
  let atoms ← match source with
    | .standard7Bag _ _ => guardedMap cancelled pure 1 (bagAtoms full)
    | .factorizedExpression shape => guardedMap cancelled compileAtom 1 shape.atoms
  let (actualCount, actualLength) ← guardedFold cancelled countAtom (1 + atoms.length) (1, 0) atoms
  refuseIf (actualCount ≠ count ∨ actualLength ≠ full) .inconsistentSource
  checkCancelled (cancelled (1 + 2 * atoms.length))
  pure (atoms, visible, count)

/-- `BagState::fresh_standard_7_bag().packed_remainder_key()`. -/
def fullBagKey : UInt64 := encodeRemainder (.fromPieces PieceKind.standardTetrominoes)

namespace CompactPatternUnionLanguage

/-- `None` where the storage is not a compact one. -/
def prepare (patterns : MaterializedPatternUniverse) (initial : SupplyExecutionState)
    (limits : CompactPatternUnionLimits) (cancelled : Nat → Bool) (owner : Nat) :
    Except CompactPatternUnionError
      (Option (CompactPatternUnionLanguage × CompactPatternUnionFrontier)) := do
  checkCancelled (cancelled 0)
  refuseIf (patterns.complete = false ∨ patterns.truncationReason.isSome) .incompleteSource
  refuseIf (patterns.patternCount = 0 ∨
    patterns.totalPossiblePatternCount ≠ patterns.patternCount) .inconsistentSource
  refuseIf (initial.observation.policy ≠ .fullQueueOracle) .unsupportedObservation
  refuseIf (initial.cursor ≠ 0 ∨ initial.holdEmpty ≠ initial.holdPiece.isNone ∨
    (initial.holdPolicy = .forbidden ∧ initial.holdPiece.isSome)) .unsupportedInitialState
  match patterns.uniformCompactSource with
  | none => pure none
  | some source => do
    let standard := match source with
      | .standard7Bag _ _ => true
      | .factorizedExpression _ => false
    refuseIf (initial.bagEpoch ≠ 0 ∨ (initial.bagRemainderKey ≠ 0 ∧
      (standard = false ∨ initial.bagRemainderKey ≠ fullBagKey))) .unsupportedInitialState
    let (atoms, visible, count) ← compileAtoms source limits cancelled
    match atoms with
    | [] => .error .inconsistentSource
    | first :: rest => do
      refuseIf (count ≠ patterns.patternCount ∨ visible = 0) .inconsistentSource
      refuseIf (visible > 65535) .counterOverflow
      checkCancelled (cancelled (2 + 2 * (first :: rest).length))
      pure (some (⟨owner, first :: rest, visible, count, initial, limits⟩,
        ⟨owner, [⟨⟨0, 0, first.choices, 0⟩, initial.holdPiece⟩], 0⟩))

variable (self : CompactPatternUnionLanguage) (cancelled : Nat → Bool)

/-! ## Merging -/

/-- One more state of a merge, if there is room. -/
def pushMerged (states : List PlacementState) (item : PlacementState) :
    Except CompactPatternUnionError (List PlacementState) := do
  refuseIf (states.length = self.limits.frontierStates)
    (.frontierStateLimit self.limits.frontierStates (min (self.limits.frontierStates + 1) usizeMax))
  pure (states ++ [item])

/-- The loop of `merge`, from question `question` on. -/
def mergeLoop : Nat → List PlacementState → List PlacementState → List PlacementState →
    Except CompactPatternUnionError (Nat × List PlacementState)
  | question, [], [], states => pure (question, states)
  | question, [], b :: right, states => do
    checkCancelled (cancelled question)
    let states ← self.pushMerged states b
    mergeLoop (question + 1) [] right states
  | question, a :: left, [], states => do
    checkCancelled (cancelled question)
    let states ← self.pushMerged states a
    mergeLoop (question + 1) left [] states
  | question, a :: left, b :: right, states => do
    checkCancelled (cancelled question)
    if a = b then do
      let states ← self.pushMerged states a
      mergeLoop (question + 1) left right states
    else if a < b then do
      let states ← self.pushMerged states a
      mergeLoop (question + 1) left (b :: right) states
    else do
      let states ← self.pushMerged states b
      mergeLoop (question + 1) (a :: left) right states
  termination_by _ left right _ => left.length + right.length

def merge (left right : CompactPatternUnionFrontier) :
    Except CompactPatternUnionError CompactPatternUnionFrontier := do
  checkCancelled (cancelled 0)
  refuseIf (self.owner ≠ left.owner ∨ self.owner ≠ right.owner) .foreignFrontier
  refuseIf (left.placedPieces ≠ right.placedPieces) .placementDepthMismatch
  let (question, states) ← self.mergeLoop cancelled 1 left.states right.states []
  checkCancelled (cancelled question)
  pure ⟨self.owner, states, left.placedPieces⟩

/-! ## Advancing -/

def draw (state : DrawState) (piece : PieceKind) : Option DrawState :=
  if state.consumed ≥ self.sequencePieces ∨ state.remaining &&& pieceBit piece = 0 then none
  else do
    let atom ← self.atoms[state.atom]?
    if state.used + 1 = atom.draws then
      some ⟨state.atom + 1, 0, (self.atoms[state.atom + 1]?).elim 0 DrawAtom.choices,
        state.consumed + 1⟩
    else some ⟨state.atom, state.used + 1, state.remaining &&& ~~~pieceBit piece, state.consumed + 1⟩

/-- The states so far and the attempts made. -/
structure Advancing where
  states : List PlacementState
  attempts : Nat

/-- `binary_search` finds where the state belongs, or that it is there already. -/
def appendStep (out : Advancing) (execution : SupplyExecutionState) (kind : SupplyBranchKind)
    (current : PieceKind) (next : Option PieceKind) (draw : DrawState) :
    Except CompactPatternUnionError Advancing := do
  refuseIf (out.attempts + 1 > usizeMax) .counterOverflow
  refuseIf (out.attempts + 1 > self.limits.transitionAttempts)
    (.transitionLimit self.limits.transitionAttempts (out.attempts + 1))
  let step ← (transition execution kind current next).mapError .supply
  refuseIf (step.nextState.cursor.toNat ≠ draw.consumed) .inconsistentSource
  let state : PlacementState := ⟨draw, step.nextState.holdPiece⟩
  if state ∈ out.states then pure { out with attempts := out.attempts + 1 }
  else do
    refuseIf (out.states.length + 1 > self.limits.frontierStates)
      (.frontierStateLimit self.limits.frontierStates (out.states.length + 1))
    pure ⟨out.states.orderedInsert (· ≤ ·) state, out.attempts + 1⟩

/-- The supply state a placement state stands for. -/
def execution (state : PlacementState) : SupplyExecutionState :=
  { self.initial with
    cursor := UInt16.ofNat state.draw.consumed
    holdPiece := state.held
    holdEmpty := state.held.isNone }

/-- The drawn piece is placed itself. -/
def advanceCurrent (state : PlacementState) (desired : PieceKind) (out : Advancing)
    (current : PieceKind) (afterCurrent : DrawState) : Except CompactPatternUnionError Advancing :=
  if current = desired ∧ (self.execution state).holdPolicy ≠ .required then
    self.appendStep out (self.execution state) .current current none afterCurrent
  else pure out

/-- The drawn piece goes to the hold slot. -/
def advanceHeld (state : PlacementState) (desired : PieceKind) (out : Advancing) (current : PieceKind)
    (afterCurrent : DrawState) : Except CompactPatternUnionError Advancing :=
  if (self.execution state).holdPolicy = .forbidden then pure out
  else if state.held = some desired then
    self.appendStep out (self.execution state) .swapHeld current none afterCurrent
  else if state.held = none then
    match self.draw afterCurrent desired with
    | some afterNext =>
      self.appendStep out (self.execution state) .storeCurrent current (some desired) afterNext
    | none => pure out
  else pure out

/-- What one drawn piece gives. -/
def advancePiece (state : PlacementState) (desired : PieceKind) (out : Advancing)
    (current : PieceKind) : Except CompactPatternUnionError Advancing :=
  match self.draw state.draw current with
  | none => pure out
  | some afterCurrent => do
    let out ← self.advanceCurrent state desired out current afterCurrent
    self.advanceHeld state desired out current afterCurrent

/-- One state; its questions are `question` and the seven after it. -/
def advanceState (desired : PieceKind) (out : Advancing) (state : PlacementState) (question : Nat) :
    Except CompactPatternUnionError Advancing := do
  checkCancelled (cancelled question)
  guardedFold cancelled (self.advancePiece state desired) (question + 1) out
    PieceKind.standardTetrominoes

def advance (frontier : CompactPatternUnionFrontier) (desired : PieceKind) :
    Except CompactPatternUnionError CompactPatternUnionFrontier := do
  checkCancelled (cancelled 0)
  refuseIf (self.owner ≠ frontier.owner) .foreignFrontier
  let placedPieces ← checkedCount (frontier.placedPieces + 1)
  let out ← frontier.states.zipIdx.foldlM
    (fun out (state, index) => self.advanceState cancelled desired out state (1 + 8 * index)) ⟨[], 0⟩
  checkCancelled (cancelled (1 + 8 * frontier.states.length))
  pure ⟨self.owner, out.states, placedPieces⟩

end CompactPatternUnionLanguage

end Clearra.Supply
