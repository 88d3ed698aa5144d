import Clearra.Domain.Piece
import Clearra.Lib.Result

/-!
# Hidden draws from a bag (`bag_draw.rs`, `bag_reveal.rs`)

A bag holds pieces with multiplicities; when it is empty the next draw refills it. A family of
reveals is all sequences of a given number of draws. It is prepared by counting, with a memo, how
many sequences continue from every state the draws can reach; a page is then a run of ranks, each
turned into its sequence by these counts.

A guard that may ask to stop is a function of how often it was asked in the call. Memory is taken to
be there.
-/

namespace Clearra.Tablebase

/-- `PC4_BAG_PIECES`, the order of distinct outcomes. -/
def pc4BagPieces : List PieceKind := [.I, .O, .T, .S, .Z, .J, .L]

/-- The multiplicities a bag is refilled with. -/
structure Pc4BagProfile where
  counts : PieceKind → Nat
  total : Nat
  total_eq : total = (pc4BagPieces.map counts).sum
  total_pos : 0 < total
  total_lt : total < 2 ^ 32
  deriving DecidableEq

/-- What is left in the bag before a draw. -/
structure Pc4BagState where
  profile : Pc4BagProfile
  remainder : PieceKind → Nat
  remainderTotal : Nat
  epoch : Nat
  remainder_le : ∀ piece, remainder piece ≤ profile.counts piece
  remainderTotal_eq : remainderTotal = (pc4BagPieces.map remainder).sum
  deriving DecidableEq

/-! ## One draw -/

structure Pc4BagDrawWeight where
  multiplicity : Nat
  denominator : Nat
  deriving DecidableEq

structure Pc4BagDrawTransition where
  piece : PieceKind
  weight : Pc4BagDrawWeight
  nextState : Pc4BagState
  deriving DecidableEq

inductive Pc4BagDrawError where
  | epochOverflow (epoch : Nat)
  deriving DecidableEq

namespace Pc4BagState

/-- The bag that is drawn from: an empty one is refilled, which starts an epoch. -/
def filled (state : Pc4BagState) : Pc4BagState :=
  if state.remainderTotal = 0 then
    { profile := state.profile
      remainder := state.profile.counts
      remainderTotal := state.profile.total
      epoch := state.epoch + 1
      remainder_le := fun _ => Nat.le_refl _
      remainderTotal_eq := state.profile.total_eq }
  else state

theorem sum_update_pred (counts : PieceKind → Nat) {piece : PieceKind} (h : counts piece ≠ 0) :
    (pc4BagPieces.map counts).sum - 1 =
      (pc4BagPieces.map (Function.update counts piece (counts piece - 1))).sum := by
  cases piece <;> simp [pc4BagPieces, Function.update] <;> omega

/-- One piece less. -/
def without (state : Pc4BagState) (piece : PieceKind) (h : state.remainder piece ≠ 0) :
    Pc4BagState where
  profile := state.profile
  remainder := Function.update state.remainder piece (state.remainder piece - 1)
  remainderTotal := state.remainderTotal - 1
  epoch := state.epoch
  remainder_le := by
    intro other
    have hle := state.remainder_le other
    by_cases hother : other = piece
    · subst hother
      rw [Function.update_self]
      omega
    · rwa [Function.update_of_ne hother]
  remainderTotal_eq := by
    rw [state.remainderTotal_eq]
    exact sum_update_pred state.remainder h

/-- What can be drawn from a bag that is not empty. -/
def transitions (state : Pc4BagState) : List Pc4BagDrawTransition :=
  pc4BagPieces.filterMap fun piece =>
    if h : state.remainder piece = 0 then none
    else some {
      piece
      weight := ⟨state.remainder piece, state.remainderTotal⟩
      nextState := state.without piece h }

end Pc4BagState

structure Pc4BagDrawBatch where
  sourceState : Pc4BagState
  drawEpoch : Nat
  refilled : Bool
  denominator : Nat
  transitions : List Pc4BagDrawTransition

def drawPc4Bag (state : Pc4BagState) : Except Pc4BagDrawError Pc4BagDrawBatch := do
  Lib.refuseIf (state.remainderTotal = 0 ∧ state.epoch + 1 ≥ 2 ^ 64) (.epochOverflow state.epoch)
  pure {
    sourceState := state
    drawEpoch := state.filled.epoch
    refilled := state.remainderTotal == 0
    denominator := state.filled.remainderTotal
    transitions := state.filled.transitions }

/-! ## Probabilities -/

/-- A fraction of two `u128`. -/
structure Pc4ExactProbability where
  numerator : Nat
  denominator : Nat
  deriving DecidableEq

/-- `u128::checked_mul`. -/
def checkedMul128 (a b : Nat) : Option Nat := if a * b < 2 ^ 128 then some (a * b) else none

/-- `u128::checked_add`. -/
def checkedAdd128 (a b : Nat) : Option Nat := if a + b < 2 ^ 128 then some (a + b) else none

namespace Pc4ExactProbability

def uniform (count : Nat) : Pc4ExactProbability := ⟨1, count⟩
def zero : Pc4ExactProbability := ⟨0, 1⟩
def one : Pc4ExactProbability := ⟨1, 1⟩

/-- The loop `gcd` of the source is Euclid's. -/
def checkedAdd (self other : Pc4ExactProbability) : Option Pc4ExactProbability := do
  let denominatorGcd := Nat.gcd self.denominator other.denominator
  let leftMultiplier := other.denominator / denominatorGcd
  let rightMultiplier := self.denominator / denominatorGcd
  let left ← checkedMul128 self.numerator leftMultiplier
  let right ← checkedMul128 other.numerator rightMultiplier
  let numerator ← checkedAdd128 left right
  let denominator ← checkedMul128 self.denominator leftMultiplier
  let divisor := Nat.gcd numerator denominator
  pure ⟨numerator / divisor, denominator / divisor⟩

def multiply (self : Pc4ExactProbability) (numerator denominator : Nat) :
    Option Pc4ExactProbability := do
  let factorDivisor := Nat.gcd numerator denominator
  let numerator := numerator / factorDivisor
  let denominator := denominator / factorDivisor
  let cancelLeft := Nat.gcd self.numerator denominator
  let cancelRight := Nat.gcd numerator self.denominator
  let resultNumerator ← checkedMul128 (self.numerator / cancelLeft) (numerator / cancelRight)
  let resultDenominator ← checkedMul128 (self.denominator / cancelRight) (denominator / cancelLeft)
  pure ⟨resultNumerator, resultDenominator⟩

end Pc4ExactProbability

/-! ## Preparing a family -/

def pc4BagRevealAbsoluteDrawLimit : Nat := 128

inductive Pc4BagRevealPrepareBudgetKind where
  | hiddenDraws | countSteps | memoEntries
  deriving DecidableEq

inductive Pc4BagRevealPageBudgetKind where
  | pageSequences | rankSteps | allocatedPieces
  deriving DecidableEq

structure Pc4BagRevealBudgets where
  hiddenDraws : Nat
  countSteps : Nat
  memoEntries : Nat
  pageSequences : Nat
  rankSteps : Nat
  allocatedPieces : Nat

inductive Pc4BagRevealPrepareError where
  | cancelled
  | absoluteDrawLimitExceeded (limit requested : Nat)
  | budgetExceeded (kind : Pc4BagRevealPrepareBudgetKind) (limit attempted : Nat)
  | sequenceCountOverflow
  | draw (e : Pc4BagDrawError)
  deriving DecidableEq

/-- The memo, what has been spent, and how often the guard was asked. -/
structure CountContext where
  suffixCounts : List ((Pc4BagState × Nat) × Nat)
  countSteps : Nat
  checks : Nat

abbrev Counting := StateT CountContext (Except Pc4BagRevealPrepareError)

section

variable (budgets : Pc4BagRevealBudgets) (cancelled : Nat → Bool)

def checkPrepareGuard : Counting Unit := fun context =>
  if cancelled context.checks then .error .cancelled
  else .ok ((), { context with checks := context.checks + 1 })

/-- `consume_prepare_budget` of the count steps. -/
def consumeCountStep : Counting Unit := fun context =>
  if context.countSteps + 1 > usizeMax then
    .error (.budgetExceeded .countSteps budgets.countSteps usizeMax)
  else if context.countSteps + 1 > budgets.countSteps then
    .error (.budgetExceeded .countSteps budgets.countSteps (context.countSteps + 1))
  else .ok ((), { context with countSteps := context.countSteps + 1 })

def addCounts (count suffix : Nat) : Counting Nat := fun context =>
  match checkedAdd128 count suffix with
  | some sum => .ok (sum, context)
  | none => .error .sequenceCountOverflow

def drawCounting (state : Pc4BagState) : Counting Pc4BagDrawBatch := fun context =>
  match drawPc4Bag state with
  | .ok batch => .ok (batch, context)
  | .error e => .error (.draw e)

/-- The memo has room for one more entry. -/
def insertCount (key : Pc4BagState × Nat) (count : Nat) : Counting Unit := fun context =>
  if context.suffixCounts.length ≥ budgets.memoEntries then
    .error (.budgetExceeded .memoEntries budgets.memoEntries
      (min (context.suffixCounts.length + 1) usizeMax))
  else .ok ((), { context with suffixCounts := (key, count) :: context.suffixCounts })

/-- How many sequences of draws there are from a state; `CountContext::count`. -/
def count : Nat → Pc4BagState → Counting Nat
  | 0, _ => do
    checkPrepareGuard cancelled
    consumeCountStep budgets
    pure 1
  | remainingDraws + 1, state => do
    checkPrepareGuard cancelled
    consumeCountStep budgets
    let context ← get
    match context.suffixCounts.lookup (state, remainingDraws + 1) with
    | some known => pure known
    | none => do
      let batch ← drawCounting state
      let total ← batch.transitions.foldlM (fun total transition => do
        let suffix ← count remainingDraws transition.nextState
        addCounts total suffix) 0
      checkPrepareGuard cancelled
      insertCount budgets (state, remainingDraws + 1) total
      pure total

end

/-- A prepared family; two families never have one token. -/
structure Pc4BagRevealFamily where
  sourceState : Pc4BagState
  hiddenDraws : Nat
  totalSequences : Nat
  suffixCounts : List ((Pc4BagState × Nat) × Nat)
  budgets : Pc4BagRevealBudgets
  cursorToken : Nat

def preparePc4BagRevealFamily (sourceState : Pc4BagState) (hiddenDraws : Nat)
    (budgets : Pc4BagRevealBudgets) (cancelled : Nat → Bool) (token : Nat) :
    Except Pc4BagRevealPrepareError Pc4BagRevealFamily := do
  Lib.refuseIf (hiddenDraws > pc4BagRevealAbsoluteDrawLimit)
    (.absoluteDrawLimitExceeded pc4BagRevealAbsoluteDrawLimit hiddenDraws)
  Lib.refuseIf (hiddenDraws > budgets.hiddenDraws)
    (.budgetExceeded .hiddenDraws budgets.hiddenDraws hiddenDraws)
  let (_, context) ← checkPrepareGuard cancelled ⟨[], 0, 0⟩
  let (totalSequences, context) ← count budgets cancelled hiddenDraws sourceState context
  let (_, context) ← checkPrepareGuard cancelled context
  pure ⟨sourceState, hiddenDraws, totalSequences, context.suffixCounts, budgets, token⟩

/-! ## Paging -/

inductive Pc4FiniteQueueReadError where
  | queueUnavailable | queueLengthMismatch | allocationFailed
  deriving DecidableEq

inductive Pc4BagRevealPageError where
  | finiteQueue (e : Pc4FiniteQueueReadError)
  | cancelled
  | cursorMismatch
  | budgetExceeded (kind : Pc4BagRevealPageBudgetKind) (limit attempted : Nat)
  | probabilityOverflow
  | memoInvariantViolation
  | draw (e : Pc4BagDrawError)
  deriving DecidableEq

structure Pc4BagRevealSequence where
  rank : Nat
  pieces : List PieceKind
  probability : Pc4ExactProbability
  terminalState : Pc4BagState

structure Pc4BagRevealCursor where
  familyToken : Nat
  nextRank : Nat
  exhausted : Bool

/-- What a page has spent, and how often the guard was asked. -/
structure PageWork where
  rankSteps : Nat
  checks : Nat

abbrev Paging := StateT PageWork (Except Pc4BagRevealPageError)

def checkPageGuard (cancelled : Nat → Bool) : Paging Unit := fun work =>
  if cancelled work.checks then .error .cancelled
  else .ok ((), { work with checks := work.checks + 1 })

def failPage {α : Type} (e : Pc4BagRevealPageError) : Paging α := fun _ => .error e

/-- `ok_or(..)?`. -/
def orFailPage {α : Type} (e : Pc4BagRevealPageError) : Option α → Paging α
  | some a => pure a
  | none => failPage e

namespace Pc4BagRevealFamily

variable (family : Pc4BagRevealFamily) (cancelled : Nat → Bool)

def cursor : Pc4BagRevealCursor := ⟨family.cursorToken, 0, false⟩

/-- `consume_page_budget` of the rank steps. -/
def consumeRankStep : Paging Unit := fun work =>
  if work.rankSteps + 1 > usizeMax then
    .error (.budgetExceeded .rankSteps family.budgets.rankSteps usizeMax)
  else if work.rankSteps + 1 > family.budgets.rankSteps then
    .error (.budgetExceeded .rankSteps family.budgets.rankSteps (work.rankSteps + 1))
  else .ok ((), { work with rankSteps := work.rankSteps + 1 })

/-- How many sequences continue from a state. -/
def suffixCount (state : Pc4BagState) : Nat → Paging Nat
  | 0 => pure 1
  | remaining + 1 =>
    orFailPage .memoInvariantViolation (family.suffixCounts.lookup (state, remaining + 1))

/-- The transition that `residualRank` falls into, with `remaining` draws after it. -/
def selectTransition (remaining : Nat) :
    List Pc4BagDrawTransition → Nat → Paging (Pc4BagDrawTransition × Nat)
  | [], _ => failPage .memoInvariantViolation
  | transition :: transitions, residualRank => do
    family.consumeRankStep
    let count ← family.suffixCount transition.nextState remaining
    if residualRank < count then pure (transition, residualRank)
    else selectTransition remaining transitions (residualRank - count)

def drawPaging (state : Pc4BagState) : Paging Pc4BagDrawBatch := fun work =>
  match drawPc4Bag state with
  | .ok batch => .ok (batch, work)
  | .error e => .error (.draw e)

/-- The loop of `sequence_at_rank`. -/
def sequenceLoop (originalRank : Nat) : Nat → Pc4BagState → Nat → List PieceKind →
    Pc4ExactProbability → Paging Pc4BagRevealSequence
  | 0, state, _, pieces, probability => pure ⟨originalRank, pieces, probability, state⟩
  | remaining + 1, state, residualRank, pieces, probability => do
    checkPageGuard cancelled
    let batch ← drawPaging state
    let (transition, residualRank) ←
      family.selectTransition remaining batch.transitions residualRank
    let probability ← orFailPage .probabilityOverflow
      (probability.multiply transition.weight.multiplicity transition.weight.denominator)
    sequenceLoop originalRank remaining transition.nextState residualRank
      (pieces ++ [transition.piece]) probability

def sequenceAtRank (originalRank : Nat) : Paging Pc4BagRevealSequence :=
  family.sequenceLoop cancelled originalRank family.hiddenDraws family.sourceState originalRank []
    .one

/-- The sequences of `pageLength` ranks from `nextRank` on. -/
def pageLoop : Nat → Nat → Paging (List Pc4BagRevealSequence)
  | 0, _ => pure []
  | pageLength + 1, nextRank => do
    checkPageGuard cancelled
    let sequence ← family.sequenceAtRank cancelled nextRank
    let page ← pageLoop pageLength (nextRank + 1)
    pure (sequence :: page)

/-- `next_page`; an error leaves the cursor as it was. -/
def nextPage (cursor : Pc4BagRevealCursor) (limit : Nat) :
    Except Pc4BagRevealPageError (List Pc4BagRevealSequence × Pc4BagRevealCursor) := do
  Lib.refuseIf (cursor.familyToken ≠ family.cursorToken) .cursorMismatch
  Lib.refuseIf (limit > family.budgets.pageSequences)
    (.budgetExceeded .pageSequences family.budgets.pageSequences limit)
  let (_, work) ← checkPageGuard cancelled ⟨0, 0⟩
  if cursor.exhausted then pure ([], cursor)
  else do
    let pageLength := min (family.totalSequences - cursor.nextRank) limit
    Lib.refuseIf (pageLength * family.hiddenDraws > usizeMax)
      (.budgetExceeded .allocatedPieces family.budgets.allocatedPieces usizeMax)
    Lib.refuseIf (pageLength * family.hiddenDraws > family.budgets.allocatedPieces)
      (.budgetExceeded .allocatedPieces family.budgets.allocatedPieces
        (pageLength * family.hiddenDraws))
    let (page, work) ← family.pageLoop cancelled pageLength cursor.nextRank work
    let (_, _) ← checkPageGuard cancelled work
    let nextRank := cursor.nextRank + pageLength
    pure (page, { cursor with nextRank, exhausted := nextRank == family.totalSequences })

end Pc4BagRevealFamily

end Clearra.Tablebase
