import Clearra.Supply.HoldProjection
import Clearra.Lib.Result

/-!
# The automaton on a bag (`execution_automaton/`, `pattern_universe/bag_multiset_reachability.rs`)

The same one-slot hold, but the supply is a bag instead of a queue: the state carries what is left
of the open bag, packed into nibbles of a `u64`, and a step may draw any piece that is left.
`reachable_bag_multisets` explores this automaton breadth-first, keeping for every state the
multiset placed on the way, and never writes a queue down.

The breadth-first pass accounts for the memory of its four vectors before it touches them. What
the allocator answers is not in the code, so it is a parameter (`Allocator`); the layout of the
vectors' elements and the width of `usize` are those of the target (`Target`).
-/

namespace Clearra.Supply

open Lib

/-! ## The packed remainder -/

/-- `(index + 1) * 4`: where the count of a piece sits in the packed remainder. -/
def nibbleShift (p : PieceKind) : UInt64 := UInt64.ofNat ((p.index + 1) * 4)

/-- `encode_remainder(remainder)`. -/
def encodeRemainder (remainder : PieceMultisetKey) : UInt64 :=
  PieceKind.standardTetrominoes.foldl
    (fun key p => key ||| (UInt64.ofNat (remainder.counts p) <<< nibbleShift p)) 0

def storageMask : UInt64 :=
  PieceKind.standardTetrominoes.foldl (fun mask p => mask ||| (0xf <<< nibbleShift p)) 0

/-- `decode_remainder(key)`. -/
def decodeRemainder (key : UInt64) : Except SupplyExecutionError PieceMultisetKey :=
  if key &&& ~~~storageMask ≠ 0 then .error .invalidBagRemainder
  else .ok (PieceMultisetKey.fromCounts fun p => ((key >>> nibbleShift p) &&& 0xf).toNat)

/-- `remove_piece(remainder, piece)`: unlike `PieceMultisetKey::remove` it rebuilds the total. -/
def removePiece (remainder : PieceMultisetKey) (p : PieceKind) : Option PieceMultisetKey :=
  if remainder.counts p = 0 then none
  else some (.fromCounts (Function.update remainder.counts p (remainder.counts p - 1)))

/-- Some piece has more copies left than a full bag has. -/
def exceedsBag (fullBag remainder : PieceMultisetKey) : Bool :=
  PieceKind.standardTetrominoes.any fun p => remainder.count p > fullBag.count p

/-- `decode_initial_remainder(key, full_bag, fresh_source)`. -/
def decodeInitialRemainder (key : UInt64) (fullBag : PieceMultisetKey) (freshSource : Bool) :
    Except SupplyExecutionError PieceMultisetKey :=
  if key = 0 ∧ freshSource then .ok fullBag
  else do
    let remainder ← decodeRemainder key
    refuseIf (exceedsBag fullBag remainder) .invalidBagRemainder
    return remainder

/-! ## The automaton -/

structure SupplyExecutionAutomaton where
  fullBag : Option PieceMultisetKey
  deriving DecidableEq

namespace SupplyExecutionAutomaton

/-- `for_bag(bag_pattern)`. -/
def forBag (bagPattern : List PieceKind) : Except SupplyExecutionError SupplyExecutionAutomaton :=
  let fullBag := PieceMultisetKey.fromPieces bagPattern
  if fullBag.totalCount = 0 then .error .emptyBagProfile
  else if PieceKind.standardTetrominoes.any fun p => fullBag.counts p > 0x0f then
    .error .invalidBagRemainder
  else .ok ⟨some fullBag⟩

/-- `self.full_bag.ok_or(EmptyBagProfile)`. -/
def requireBag (self : SupplyExecutionAutomaton) : Except SupplyExecutionError PieceMultisetKey :=
  match self.fullBag with
  | some fullBag => .ok fullBag
  | none => .error .emptyBagProfile

def validateBagState (self : SupplyExecutionAutomaton) (state : SupplyExecutionState) :
    Except SupplyExecutionError Unit := do
  state.validate
  let fullBag ← self.requireBag
  let remainder ← decodeRemainder state.bagRemainderKey
  refuseIf (exceedsBag fullBag remainder) .invalidBagRemainder

/-- The policy a state is read under; a required hold stays required. -/
def projectedPolicy (holdEnabled : Bool) (holdPolicy : HoldPolicy) : HoldPolicy :=
  if holdEnabled then (if holdPolicy = .required then .required else .allowed) else .forbidden

/-- How many bags a number of draws can open. -/
def maximumRefills (fullBag remainder : PieceMultisetKey) (maximumDrawCount : Nat) : Nat :=
  let refillDrawCount := maximumDrawCount - remainder.totalCount
  let fullBagSize := fullBag.totalCount
  if refillDrawCount = 0 then 0 else (refillDrawCount + (fullBagSize - 1)) / fullBagSize

/-- `project_bag_initial_state(state, hold_enabled, placed_piece_count)`: the contract the state
    is read under, then whether the cursor and the epoch have room for every draw that can come. -/
def projectBagInitialState (self : SupplyExecutionAutomaton) (state : SupplyExecutionState)
    (holdEnabled : Bool) (placedPieceCount : Nat) :
    Except SupplyExecutionError SupplyExecutionState := do
  let fullBag ← self.requireBag
  refuseIf (state.holdEmpty ≠ state.holdPiece.isNone ∨
    (holdEnabled = false ∧ state.holdPiece.isSome)) .invalidHoldState
  let remainder ← decodeInitialRemainder state.bagRemainderKey fullBag (state.cursor = 0)
  let state := { state with
    sourceKind := .bagUniverse
    holdPolicy := projectedPolicy holdEnabled state.holdPolicy
    bagRemainderKey := encodeRemainder remainder }
  self.validateBagState state
  let maximumDrawCount := placedPieceCount + (holdEnabled && state.holdPiece.isNone).toNat
  refuseIf (maximumDrawCount ≥ 2 ^ 16) .cursorExhausted
  refuseIf (state.cursor.toNat + maximumDrawCount ≥ 2 ^ 16) .cursorExhausted
  let refills := maximumRefills fullBag remainder maximumDrawCount
  refuseIf (refills ≥ 2 ^ 16) .bagEpochExhausted
  refuseIf (state.bagEpoch.toNat + refills ≥ 2 ^ 16) .bagEpochExhausted
  return state

/-- The epoch of a draw: a refill opens a new bag, unless nothing has been drawn yet. -/
def drawEpoch (state : SupplyExecutionState) (remainder : PieceMultisetKey) :
    Except SupplyExecutionError UInt16 :=
  if remainder.totalCount = 0 ∧ state.cursor ≠ 0 then
    if state.bagEpoch.toNat + 1 < 2 ^ 16 then .ok (state.bagEpoch + 1)
    else .error .bagEpochExhausted
  else .ok state.bagEpoch

/-- `draw_bag_piece(state, piece)`: an empty remainder is refilled first; `none` when the piece is
    not in the bag. -/
def drawBagPiece (self : SupplyExecutionAutomaton) (state : SupplyExecutionState) (p : PieceKind) :
    Except SupplyExecutionError (Option SupplyExecutionState) := do
  let fullBag ← self.requireBag
  let remainder ← decodeRemainder state.bagRemainderKey
  let bagEpoch ← drawEpoch state remainder
  match removePiece (if remainder.totalCount = 0 then fullBag else remainder) p with
  | none => return none
  | some remainder =>
    let cursor ← checkedAdvance state.cursor 1
    return some { state with cursor, bagEpoch, bagRemainderKey := encodeRemainder remainder }

/-- The first arm of `for_each_matching_bag_step`. -/
def currentSteps (self : SupplyExecutionAutomaton) (state : SupplyExecutionState)
    (desiredPiece : PieceKind) : Except SupplyExecutionError (List SupplyExecutionStep) :=
  if state.holdPolicy = .required then .ok []
  else do
    match ← self.drawBagPiece state desiredPiece with
    | none => return []
    | some nextState => return [step state nextState desiredPiece desiredPiece none 1 .current]

/-- One turn of the loops of `for_each_matching_bag_step` over the piece drawn first. -/
def swapHeldStep (self : SupplyExecutionAutomaton) (state : SupplyExecutionState)
    (desiredPiece currentPiece : PieceKind) :
    Except SupplyExecutionError (List SupplyExecutionStep) := do
  match ← self.drawBagPiece state currentPiece with
  | none => return []
  | some nextState =>
    return [step state (nextState.setHoldPiece (some currentPiece)) desiredPiece currentPiece none
      1 .swapHeld]

@[inherit_doc swapHeldStep]
def storeCurrentStep (self : SupplyExecutionAutomaton) (state : SupplyExecutionState)
    (desiredPiece currentPiece : PieceKind) :
    Except SupplyExecutionError (List SupplyExecutionStep) := do
  match ← self.drawBagPiece state currentPiece with
  | none => return []
  | some afterCurrent =>
    match ← self.drawBagPiece afterCurrent desiredPiece with
    | none => return []
    | some nextState =>
      return [step state (nextState.setHoldPiece (some currentPiece)) desiredPiece currentPiece
        (some desiredPiece) 2 .storeCurrent]

/-- The arms of `for_each_matching_bag_step` that touch the slot. -/
def heldSteps (self : SupplyExecutionAutomaton) (state : SupplyExecutionState)
    (desiredPiece : PieceKind) : Except SupplyExecutionError (List (List SupplyExecutionStep)) :=
  match state.holdState with
  | .disabled => .ok []
  | .occupied held =>
    if held = desiredPiece then
      PieceKind.standardTetrominoes.mapM (self.swapHeldStep state desiredPiece)
    else .ok []
  | .empty => PieceKind.standardTetrominoes.mapM (self.storeCurrentStep state desiredPiece)

/-- `for_each_matching_bag_step(state, desired_piece, visit)`: the steps in the order they are
    visited. The only visitors in the source push. -/
def forEachMatchingBagStep (self : SupplyExecutionAutomaton) (state : SupplyExecutionState)
    (desiredPiece : PieceKind) : Except SupplyExecutionError (List SupplyExecutionStep) := do
  self.validateBagState state
  let used ← self.currentSteps state desiredPiece
  let held ← self.heldSteps state desiredPiece
  return used ++ held.flatten

end SupplyExecutionAutomaton

/-! ## `BagPlacementAutomaton`: the same states without the fields that never change -/

structure BagPlacementState where
  cursor : UInt16
  holdPiece : Option PieceKind
  bagEpoch : UInt16
  bagRemainder : PieceMultisetKey
  deriving DecidableEq

/-- `None < Some(_)`, then declaration order. -/
def holdOrd : Option PieceKind → Nat
  | none => 0
  | some p => p.index + 1

theorem holdOrd_injective : Function.Injective holdOrd := by
  intro a b h
  cases a with
  | none => cases b with
    | none => rfl
    | some q => exact absurd h (by simp [holdOrd])
  | some p => cases b with
    | none => exact absurd h (by simp [holdOrd])
    | some q => rw [PieceKind.index_injective (Nat.succ.inj h)]

namespace BagPlacementState

/-- The fields in the order the derived `Ord` compares them. -/
def ordKey (s : BagPlacementState) : List Nat :=
  s.cursor.toNat :: holdOrd s.holdPiece :: s.bagEpoch.toNat :: s.bagRemainder.ordKey

theorem ordKey_injective : Function.Injective ordKey := by
  rintro ⟨c, h, e, r⟩ ⟨c', h', e', r'⟩ heq
  simp only [ordKey, List.cons.injEq] at heq
  obtain ⟨hc, hh, he, hr⟩ := heq
  rw [UInt16.toNat_inj.mp hc, holdOrd_injective hh, UInt16.toNat_inj.mp he,
    PieceMultisetKey.ordKey_injective hr]

instance : LinearOrder BagPlacementState := LinearOrder.lift' ordKey ordKey_injective

end BagPlacementState

/-- Declaration order of `SupplyBranchKind`. -/
def SupplyBranchKind.index : SupplyBranchKind → Nat
  | .current => 0
  | .swapHeld => 1
  | .storeCurrent => 2

theorem SupplyBranchKind.index_injective : Function.Injective SupplyBranchKind.index := by
  intro a b h
  cases a <;> cases b <;> first | rfl | exact absurd h (by decide)

structure BagSupplyBranch where
  usedPiece : PieceKind
  nextState : BagPlacementState
  kind : SupplyBranchKind
  deriving DecidableEq

namespace BagSupplyBranch

/-- The fields in the order the derived `Ord` compares them. -/
def ordKey (b : BagSupplyBranch) : List Nat :=
  b.usedPiece.index :: (b.nextState.ordKey ++ [b.kind.index])

theorem ordKey_injective : Function.Injective ordKey := by
  rintro ⟨p, s, k⟩ ⟨p', s', k'⟩ heq
  simp only [ordKey, List.cons.injEq] at heq
  obtain ⟨hs, hk⟩ := List.append_inj heq.2 rfl
  rw [PieceKind.index_injective heq.1, BagPlacementState.ordKey_injective hs,
    SupplyBranchKind.index_injective (List.cons.inj hk).1]

instance : LinearOrder BagSupplyBranch := LinearOrder.lift' ordKey ordKey_injective

end BagSupplyBranch

/-- `compact_state(state)`. -/
def compactState (state : SupplyExecutionState) : Except SupplyExecutionError BagPlacementState := do
  let bagRemainder ← decodeRemainder state.bagRemainderKey
  return ⟨state.cursor, state.holdPiece, state.bagEpoch, bagRemainder⟩

structure BagPlacementAutomaton where
  inner : SupplyExecutionAutomaton
  stateIdentity : SupplyExecutionState

namespace BagPlacementAutomaton

/-- `from_initial_hold(bag_pattern, initial_hold, hold_enabled, placed_piece_count)`. -/
def fromInitialHold (bagPattern : List PieceKind) (initialHold : SupplyExecutionState)
    (holdEnabled : Bool) (placedPieceCount : Nat) :
    Except SupplyExecutionError (BagPlacementAutomaton × BagPlacementState) := do
  let inner ← SupplyExecutionAutomaton.forBag bagPattern
  let stateIdentity ← inner.projectBagInitialState initialHold holdEnabled placedPieceCount
  let initialState ← compactState stateIdentity
  return (⟨inner, stateIdentity⟩, initialState)

/-- `execution_state(state)`. -/
def executionState (self : BagPlacementAutomaton) (state : BagPlacementState) :
    SupplyExecutionState :=
  { self.stateIdentity with
    cursor := state.cursor
    holdPiece := state.holdPiece
    holdEmpty := state.holdPiece.isNone
    bagEpoch := state.bagEpoch
    bagRemainderKey := encodeRemainder state.bagRemainder }

/-- What the visitor of `write_matching_branches` pushes for a step. -/
def branchOf (taken : SupplyExecutionStep) : Except SupplyExecutionError BagSupplyBranch := do
  let nextState ← compactState taken.nextState
  return ⟨taken.usedPiece, nextState, taken.evidence.branchKind⟩

/-- `write_matching_branches(state, desired_piece, branches)`. The source keeps the last error of
    the visitor and this returns the first; `compact_state` has only one error. -/
def writeMatchingBranches (self : BagPlacementAutomaton) (state : BagPlacementState)
    (desiredPiece : PieceKind) : Except SupplyExecutionError (List BagSupplyBranch) := do
  let steps ← self.inner.forEachMatchingBagStep (self.executionState state) desiredPiece
  let branches ← steps.mapM branchOf
  return sortDedup branches

end BagPlacementAutomaton

/-! ## The breadth-first pass -/

structure BagMultisetFrontierState where
  supply : BagPlacementState
  placedMultiset : PieceMultisetKey
  deriving DecidableEq

namespace BagMultisetFrontierState

/-- The fields in the order the derived `Ord` compares them. -/
def ordKey (s : BagMultisetFrontierState) : List Nat := s.supply.ordKey ++ s.placedMultiset.ordKey

theorem ordKey_injective : Function.Injective ordKey := by
  rintro ⟨s, k⟩ ⟨s', k'⟩ heq
  obtain ⟨hs, hk⟩ := List.append_inj heq rfl
  have hsupply : s = s' := BagPlacementState.ordKey_injective hs
  have hplaced : k = k' := PieceMultisetKey.ordKey_injective hk
  rw [hsupply, hplaced]

instance : LinearOrder BagMultisetFrontierState := LinearOrder.lift' ordKey ordKey_injective

end BagMultisetFrontierState

/-- The children of one frontier state by one desired piece. -/
def frontierChildren (automaton : BagPlacementAutomaton) (state : BagMultisetFrontierState)
    (desiredPiece : PieceKind) : Except SupplyExecutionError (List BagMultisetFrontierState) := do
  let branches ← automaton.writeMatchingBranches state.supply desiredPiece
  return branches.map fun branch =>
    ⟨branch.nextState, state.placedMultiset.push branch.usedPiece⟩

/-- One depth of the pass: the children of every state by every piece, sorted, without
    repetitions. -/
def nextFrontier (automaton : BagPlacementAutomaton) (current : List BagMultisetFrontierState) :
    Except SupplyExecutionError (List BagMultisetFrontierState) := do
  let children ← current.mapM fun state => do
    let byPiece ← PieceKind.standardTetrominoes.mapM (frontierChildren automaton state)
    return byPiece.flatten
  return sortDedup children.flatten

/-! ### Memory -/

/-- The build target: the largest `usize` and `size_of` of the three element types. -/
structure Target where
  usizeMax : Nat
  frontierStateBytes : Nat
  branchBytes : Nat
  multisetKeyBytes : Nat
  usizeMax_ge : 2 ^ 32 ≤ usizeMax + 1
  usizeMax_lt : usizeMax < 2 ^ 64
  frontierStateBytes_lt : frontierStateBytes < 2 ^ 32
  branchBytes_lt : branchBytes < 2 ^ 32
  multisetKeyBytes_lt : multisetKeyBytes < 2 ^ 32

/-- What `try_reserve_exact` answers: to the `i`-th request for a capacity, the capacity granted,
    or a refusal. A granted capacity is at least the one asked for and is a `usize`. -/
structure Allocator (target : Target) where
  grant : Nat → Nat → Option Nat
  le_of_grant : ∀ {i asked granted : Nat}, grant i asked = some granted → asked ≤ granted
  granted_le : ∀ {i asked granted : Nat}, grant i asked = some granted → granted ≤ target.usizeMax

inductive BoundedBagMultisetError where
  | projection (error : SupplyExecutionError)
  | projectionOverflow
  | allocationFailed (requiredMemoryBytes : Nat)
  | memoryCapacityExceeded (requiredMemoryBytes maxMemoryBytes : Nat)
  deriving DecidableEq

/-- A checked operation of a type whose values are below `bound`. -/
def checkedBelow (bound value : Nat) : Except BoundedBagMultisetError Nat :=
  if value < bound then .ok value else .error .projectionOverflow

/-- `already_retained_bytes` and `max_memory_bytes`, if there is a limit. -/
abbrev MemoryLimit := Option (Nat × Nat)

/-- `ensure_bag_memory_limit(memory_limit, live_bytes)`. -/
def ensureBagMemoryLimit (memoryLimit : MemoryLimit) (liveBytes : Nat) :
    Except BoundedBagMultisetError Unit :=
  match memoryLimit with
  | none => .ok ()
  | some (alreadyRetainedBytes, maxMemoryBytes) => do
    let requiredMemoryBytes ← checkedBelow (2 ^ 128) (alreadyRetainedBytes + liveBytes)
    if requiredMemoryBytes ≤ maxMemoryBytes then return ()
    else throw (.memoryCapacityExceeded requiredMemoryBytes maxMemoryBytes)

/-- `bag_vec_bytes(values)`, of a vector of this capacity. -/
def bagVecBytes (capacity elementBytes : Nat) : Except BoundedBagMultisetError Nat :=
  checkedBelow (2 ^ 128) (capacity * elementBytes)

/-- Allocator calls made and the peak recorded so far. -/
structure BagMemory where
  calls : Nat
  peakBytes : Nat

/-- The part of `reserve_bag_capacity` that asks the allocator, if it has to. -/
def growBagCapacity {target : Target} (allocator : Allocator target) (memoryLimit : MemoryLimit)
    (elementBytes capacity requiredCapacity otherLiveBytes calls : Nat) :
    Except BoundedBagMultisetError (Nat × Nat) :=
  if capacity < requiredCapacity then do
    let bytes ← checkedBelow (2 ^ 128) (requiredCapacity * elementBytes)
    let projected ← checkedBelow (2 ^ 128) (bytes + otherLiveBytes)
    ensureBagMemoryLimit memoryLimit projected
    match allocator.grant calls requiredCapacity with
    | some granted => return (granted, calls + 1)
    | none =>
      throw <| .allocationFailed <|
        match memoryLimit with
        | none => projected
        | some (already, _) => min (already + projected) (2 ^ 128 - 1)
  else .ok (capacity, calls)

/-- `reserve_bag_capacity(values, required_capacity, other_live_bytes, memory_limit, peak_bytes)`
    on an empty vector of capacity `capacity`; every call in the source is on an empty one. The
    result is the capacity afterwards. -/
def reserveBagCapacity {target : Target} (allocator : Allocator target)
    (memoryLimit : MemoryLimit) (elementBytes capacity requiredCapacity otherLiveBytes : Nat)
    (memory : BagMemory) : Except BoundedBagMultisetError (Nat × BagMemory) := do
  let (capacity, calls) ← growBagCapacity allocator memoryLimit elementBytes capacity
    requiredCapacity otherLiveBytes memory.calls
  let bytes ← bagVecBytes capacity elementBytes
  let live ← checkedBelow (2 ^ 128) (bytes + otherLiveBytes)
  ensureBagMemoryLimit memoryLimit live
  return (capacity, ⟨calls, max memory.peakBytes live⟩)

def maxMatchingBranchesPerDesiredPiece : Nat := 8
def bagBranchBufferCapacity : Nat := 16

/-- The locals of the pass between two depths: the frontier and the capacities of its vectors. -/
structure BagPass where
  current : List BagMultisetFrontierState
  currentCapacity : Nat
  nextCapacity : Nat
  branchCapacity : Nat
  memory : BagMemory

/-- The body of the depth loop. The pushes stay within the capacity reserved before them. -/
def bagPassDepth {target : Target} (allocator : Allocator target) (memoryLimit : MemoryLimit)
    (automaton : BagPlacementAutomaton) (pass : BagPass) :
    Except BoundedBagMultisetError BagPass := do
  let byPiece ← checkedBelow (target.usizeMax + 1)
    (pass.current.length * PieceKind.standardTetrominoes.length)
  let maxChildren ← checkedBelow (target.usizeMax + 1)
    (byPiece * maxMatchingBranchesPerDesiredPiece)
  let currentBytes ← bagVecBytes pass.currentCapacity target.frontierStateBytes
  let branchBytes ← bagVecBytes pass.branchCapacity target.branchBytes
  let otherLiveBytes ← checkedBelow (2 ^ 128) (currentBytes + branchBytes)
  let (nextCapacity, memory) ← reserveBagCapacity allocator memoryLimit target.frontierStateBytes
    pass.nextCapacity maxChildren otherLiveBytes pass.memory
  let next ← (nextFrontier automaton pass.current).mapError .projection
  return { current := next, currentCapacity := nextCapacity, nextCapacity := pass.currentCapacity,
           branchCapacity := pass.branchCapacity, memory }

/-- `for _ in 0..placed_piece_count`. -/
def bagPassLoop {target : Target} (allocator : Allocator target) (memoryLimit : MemoryLimit)
    (automaton : BagPlacementAutomaton) : Nat → BagPass → Except BoundedBagMultisetError BagPass
  | 0, pass => .ok pass
  | depth + 1, pass => do
    let pass ← bagPassDepth allocator memoryLimit automaton pass
    bagPassLoop allocator memoryLimit automaton depth pass

structure BagMultisetAllocationReport where
  peakBytes : Nat
  retainedBytes : Nat
  deriving DecidableEq

/-- `reachable_bag_multisets_internal(..)`. -/
def reachableBagMultisetsInternal {target : Target} (allocator : Allocator target)
    (bagPattern : List PieceKind) (placedPieceCount : Nat) (initialHold : SupplyExecutionState)
    (holdEnabled : Bool) (memoryLimit : MemoryLimit) :
    Except BoundedBagMultisetError (List PieceMultisetKey × BagMultisetAllocationReport) := do
  let (automaton, initialState) ← (BagPlacementAutomaton.fromInitialHold bagPattern initialHold
    holdEnabled placedPieceCount).mapError .projection
  let (currentCapacity, memory) ← reserveBagCapacity allocator memoryLimit
    target.frontierStateBytes 0 1 0 ⟨0, 0⟩
  let currentBytes ← bagVecBytes currentCapacity target.frontierStateBytes
  let nextBytes ← bagVecBytes 0 target.frontierStateBytes
  let otherLiveBytes ← checkedBelow (2 ^ 128) (currentBytes + nextBytes)
  let (branchCapacity, memory) ← reserveBagCapacity allocator memoryLimit target.branchBytes 0
    bagBranchBufferCapacity otherLiveBytes memory
  let pass ← bagPassLoop allocator memoryLimit automaton placedPieceCount
    { current := [⟨initialState, .empty⟩], currentCapacity, nextCapacity := 0, branchCapacity,
      memory }
  let currentBytes ← bagVecBytes pass.currentCapacity target.frontierStateBytes
  let (multisetCapacity, memory) ← reserveBagCapacity allocator memoryLimit
    target.multisetKeyBytes 0 pass.current.length currentBytes pass.memory
  let retainedBytes ← bagVecBytes multisetCapacity target.multisetKeyBytes
  return (sortDedup (pass.current.map BagMultisetFrontierState.placedMultiset),
    ⟨max memory.peakBytes retainedBytes, retainedBytes⟩)

/-- `reachable_bag_multisets(bag_pattern, placed_piece_count, initial_hold, hold_enabled)`. -/
def reachableBagMultisets {target : Target} (allocator : Allocator target)
    (bagPattern : List PieceKind) (placedPieceCount : Nat) (initialHold : SupplyExecutionState)
    (holdEnabled : Bool) : Except SupplyExecutionError (List PieceMultisetKey) :=
  match reachableBagMultisetsInternal allocator bagPattern placedPieceCount initialHold
    holdEnabled none with
  | .ok (multisets, _) => .ok multisets
  | .error (.projection error) => .error error
  | .error _ => .error .bagEpochExhausted

/-- `reachable_bag_multisets_with_memory_limit(..)`. -/
def reachableBagMultisetsWithMemoryLimit {target : Target} (allocator : Allocator target)
    (bagPattern : List PieceKind) (placedPieceCount : Nat) (initialHold : SupplyExecutionState)
    (holdEnabled : Bool) (alreadyRetainedBytes maxMemoryBytes : Nat) :
    Except BoundedBagMultisetError (List PieceMultisetKey × BagMultisetAllocationReport) :=
  reachableBagMultisetsInternal allocator bagPattern placedPieceCount initialHold holdEnabled
    (some (alreadyRetainedBytes, maxMemoryBytes))

end Clearra.Supply
