import Clearra.Lib.Fallible
import Clearra.Lib.Guarded

/-!
# The exact at-most coordinator

`clearra-coverage/src/cover/exact_at_most_parallel.rs` and `exact_at_most_assistance.rs`: a query
(cover `required` with at most `limit` rows) is cut into *cubes*, each a list of forced and a list
of excluded rows, for workers to search; while some are idle, one more fan-out of an unanswered cube
may be handed out. Receipts are only seen here through the flags they leave.

A `PatternBitSet` is the finite set of its patterns here. What the functions ask of their host — the
memory guard, the poll of `cancelled`, an allocation, a checked sum of bytes — is a `poll`: the host
lets the call go on or ends it. Binary searches, always in sorted lists, are membership tests.
-/

namespace Clearra.Cover

structure ExactAtMostQueryIdentity where
  matrixId : List UInt8
  generation : UInt64
  queryId : UInt64
  deriving DecidableEq

inductive ExactMinimumCoverError where
  | rowPatternCountMismatch (rowIndex expected actual : Nat)
  | projectionOverflow
  | memoryCapacityExceeded (requiredMemoryBytes maxMemoryBytes : Nat)
  | memoryGuardRejected
  | allocationFailed (component : String)
  deriving DecidableEq

inductive ExactAtMostParallelError where
  | exact (error : ExactMinimumCoverError)
  | invalidTask
  | staleQuery
  | unknownPartition
  | duplicateReceipt
  | invalidWitness
  | contradictoryReceipt
  | cancelled
  | finished
  deriving DecidableEq

structure ExactAtMostQuery where
  identity : ExactAtMostQueryIdentity
  patternCount : Nat
  required : Finset Nat
  rows : List (Finset Nat)
  limit : Nat
  required_lt : ∀ pattern ∈ required, pattern < patternCount
  rows_lt : ∀ row ∈ rows, ∀ pattern ∈ row, pattern < patternCount
  deriving DecidableEq

/-- The fields are private and every constructor goes through `fromParts`. -/
structure ExactAtMostTask where
  identity : ExactAtMostQueryIdentity
  partitionId : Nat
  forcedRows : List Nat
  excludedRows : List Nat
  forced_sorted : forcedRows.Pairwise (· < ·)
  excluded_sorted : excludedRows.Pairwise (· < ·)
  apart : ∀ row ∈ forcedRows, row ∉ excludedRows
  deriving DecidableEq

inductive ExactAtMostParallelDecision where
  | pending (remaining : Nat)
  | found (rows : List Nat)
  | provedNone
  | cancelled
  deriving DecidableEq

def ExactAtMostParallelDecision.isPending : ExactAtMostParallelDecision → Bool
  | .pending _ => true
  | _ => false

structure RootObligation where
  closed : Bool
  children : Option (Nat × Nat)
  deriving DecidableEq

structure AssistanceState where
  roots : List RootObligation
  taskRoots : List Nat
  retired : List Bool
  deriving DecidableEq

structure ExactAtMostCoordinator where
  query : ExactAtMostQuery
  tasks : List ExactAtMostTask
  received : List Bool
  decision : ExactAtMostParallelDecision
  assistance : Option AssistanceState
  deriving DecidableEq

/-! ## The host -/

/-- The answer at the `n`-th point of a call. A host is any sequence of answers: the real one may
    look at the bytes it is asked for and keep a state of its own. -/
abbrev Host := Nat → Except ExactAtMostParallelError Unit

abbrev Hosted := StateT Nat (Except ExactAtMostParallelError)

def Host.poll (host : Host) : Hosted Unit := fun n => do
  host n
  return ((), n + 1)

/-! ## Queries and tasks -/

namespace ExactAtMostQuery

def row (query : ExactAtMostQuery) (index : Nat) : Finset Nat := query.rows.getD index ∅

/-- `covered_patterns_before`, up to the pattern count. -/
def requiredPatterns (query : ExactAtMostQuery) : List Nat :=
  (List.range query.patternCount).filter (· ∈ query.required)

/-- The rows that hold a pattern and are not excluded from the task. -/
def supportersOf (query : ExactAtMostQuery) (task : ExactAtMostTask) (pattern : Nat) : List Nat :=
  (List.range query.rows.length).filter fun row =>
    pattern ∈ query.row row ∧ row ∉ task.excludedRows

/-- The patterns a row would add to those of the forced rows. -/
def gain (query : ExactAtMostQuery) (task : ExactAtMostTask) (row : Nat) : Nat :=
  ((query.row row ∩ query.required).filter
    fun pattern => ∀ forced ∈ task.forcedRows, pattern ∉ query.row forced).card

end ExactAtMostQuery

namespace ExactAtMostTask

def fromParts (identity : ExactAtMostQueryIdentity) (partitionId : Nat)
    (forcedRows excludedRows : List Nat) : Except ExactAtMostParallelError ExactAtMostTask :=
  if h : forcedRows.Pairwise (· < ·) ∧ excludedRows.Pairwise (· < ·) ∧
      ∀ row ∈ forcedRows, row ∉ excludedRows then
    .ok ⟨identity, partitionId, forcedRows, excludedRows, h.1, h.2.1, h.2.2⟩
  else .error .invalidTask

/-- The cube of the task: a set of rows satisfies its descriptor. -/
def owns (task : ExactAtMostTask) (selected : Finset Nat) : Bool :=
  task.forcedRows.all (· ∈ selected) && task.excludedRows.all (· ∉ selected)

end ExactAtMostTask

/-! ## Splitting a cube -/

section

variable (host : Host) (query : ExactAtMostQuery)

/-- The loop of `supporters`: the rarest uncovered pivot, the first of equals. -/
def supportersLoop (task : ExactAtMostTask) :
    List Nat → Option (List Nat) → Hosted (Option (List Nat))
  | [], best => pure best
  | pattern :: patterns, best => do
    host.poll
    if ∃ row ∈ task.forcedRows, pattern ∈ query.row row then supportersLoop task patterns best
    else
      let next := query.supportersOf task pattern
      if best.any (·.length ≤ next.length) then supportersLoop task patterns best
      else do
        host.poll
        if next.length ≤ 1 then pure (some next) else supportersLoop task patterns (some next)

def supporters (task : ExactAtMostTask) : Hosted (Option (List Nat)) :=
  supportersLoop host query task query.requiredPatterns none

/-- Child `i` forces `rows[i]` and excludes `rows[..i]`. -/
def childTasks (parent : ExactAtMostTask) (number : Nat → Nat) :
    List Nat → List Nat → Hosted (List ExactAtMostTask)
  | _, [] => pure []
  | before, selected :: after => do
    host.poll
    let child ← (ExactAtMostTask.fromParts query.identity (number before.length)
      ((parent.forcedRows ++ [selected]).insertionSort (· ≤ ·))
      ((parent.excludedRows ++ before).insertionSort (· ≤ ·)) : Except _ _)
    let children ← childTasks parent number (before ++ [selected]) after
    return child :: children

def branchOrder (impactBranching : Bool) (parent : ExactAtMostTask) (rows : List Nat) : List Nat :=
  if impactBranching then
    rows.insertionSort fun a b =>
      query.gain parent b < query.gain parent a ∨ query.gain parent a = query.gain parent b ∧ a ≤ b
  else rows

/-- One turn of the loop: the children that replace the task, or nothing. -/
def split (impactBranching : Bool) (parent : ExactAtMostTask) :
    Hosted (Option (List ExactAtMostTask)) :=
  if query.limit ≤ parent.forcedRows.length then pure none
  else do
    host.poll
    match ← supporters host query parent with
    | none | some [] => pure none
    | some (row :: rows) => do
      host.poll
      let children ← childTasks host query parent (fun _ => 0) []
        (branchOrder query impactBranching parent (row :: rows))
      host.poll
      return some children

/-- The loop over `tasks` and `cursor`. -/
def frontierLoop (targetPartitions : Nat) (impactBranching : Bool) :
    Nat → Nat → List ExactAtMostTask → Hosted (List ExactAtMostTask)
  | 0, _, tasks => pure tasks
  | fuel + 1, cursor, tasks =>
    if tasks.length < max targetPartitions 1 then
      match tasks[cursor]? with
      | none => pure tasks
      | some parent => do
        host.poll
        match ← split host query impactBranching parent with
        | none => frontierLoop targetPartitions impactBranching fuel (cursor + 1) tasks
        | some children =>
          frontierLoop targetPartitions impactBranching fuel cursor (tasks.eraseIdx cursor ++ children)
    else pure tasks

end

namespace ExactAtMostCoordinator

def prepareWithBranchOrder (host : Host) (query : ExactAtMostQuery) (targetPartitions : Nat)
    (impactBranching : Bool) : Hosted ExactAtMostCoordinator := do
  host.poll
  let root ← (ExactAtMostTask.fromParts query.identity 0 [] [] : Except _ _)
  let tasks ← frontierLoop host query targetPartitions impactBranching
    ((query.rows.length + 1) ^ query.limit) 0 [root]
  host.poll
  return {
    query := query
    tasks := tasks.mapIdx fun index task => { task with partitionId := index }
    received := List.replicate tasks.length false
    decision := .pending tasks.length
    assistance := none }

/-! ## The registry -/

variable (coordinator : ExactAtMostCoordinator)

def hasReceived (index : Nat) : Bool := coordinator.received.getD index false

/-- The obligations; before the first fan-out each task is its own root, closed by its receipt. -/
def assistanceState : AssistanceState :=
  coordinator.assistance.getD {
    roots := coordinator.received.map fun closed => ⟨closed, none⟩
    taskRoots := List.range coordinator.tasks.length
    retired := List.replicate coordinator.tasks.length false }

def obligation (root : Nat) : RootObligation :=
  coordinator.assistanceState.roots.getD root ⟨false, none⟩

/-! ## Idle assistance -/

def maxAssistChildren : Nat := 64
def maxAssistTasks : Nat := 512
def maxAssistGroups : Nat := 64
def maxAssistPivotRowChecks : Nat := 16384

/-- Whether a forced row covers the pattern, and the row checks made; `none` once they run out. -/
def forcedCovers (query : ExactAtMostQuery) (pattern : Nat) :
    List Nat → Nat → Option (Bool × Nat)
  | [], checked => some (false, checked)
  | row :: rows, checked =>
    if checked = maxAssistPivotRowChecks then none
    else if pattern ∈ query.row row then some (true, checked + 1)
    else forcedCovers query pattern rows (checked + 1)

/-- The supporters among `rows` after those in `found`, left early once there are too many. -/
def countSupporters (query : ExactAtMostQuery) (parent : ExactAtMostTask) (pattern most : Nat) :
    List Nat → List Nat → Nat → Option (List Nat × Nat)
  | [], found, checked => some (found, checked)
  | row :: rows, found, checked =>
    if checked = maxAssistPivotRowChecks then none
    else if pattern ∈ query.row row ∧ row ∉ parent.excludedRows then
      if most < found.length + 1 then some (found ++ [row], checked + 1)
      else countSupporters query parent pattern most rows (found ++ [row]) (checked + 1)
    else countSupporters query parent pattern most rows found (checked + 1)

/-- How the probe of one root ends. -/
inductive Probe where
  | exhausted
  | declined (checked : Nat)
  | selected (supporters : List Nat)

/-- The patterns of one root: the first with at least two and at most `most` supporters. -/
def probeRoot (host : Host) (query : ExactAtMostQuery) (parent : ExactAtMostTask) (most : Nat) :
    List Nat → Nat → Hosted Probe
  | [], checked => pure (.declined checked)
  | pattern :: patterns, checked => do
    host.poll
    match forcedCovers query pattern parent.forcedRows checked with
    | none => pure .exhausted
    | some (true, checked) => probeRoot host query parent most patterns checked
    | some (false, checked) =>
      match countSupporters query parent pattern most (List.range query.rows.length) [] checked with
      | none => pure .exhausted
      | some (supporters, checked) =>
        if 2 ≤ supporters.length ∧ supporters.length ≤ most then pure (.selected supporters)
        else probeRoot host query parent most patterns checked

/-- The loop `'roots`. -/
def selectPivot (host : Host) (most : Nat) : List Nat → Nat → Hosted (Option (Nat × List Nat))
  | [], _ => pure none
  | root :: roots, checked => do
    host.poll
    match coordinator.tasks[root]? with
    | none => pure none
    | some parent =>
      if coordinator.hasReceived root ∨ (coordinator.obligation root).closed ∨
          (coordinator.obligation root).children.isSome ∨
          coordinator.query.limit ≤ parent.forcedRows.length then
        selectPivot host most roots checked
      else
        match ← probeRoot host coordinator.query parent most coordinator.query.requiredPatterns
            checked with
        | .exhausted => pure none
        | .declined checked => selectPivot host most roots checked
        | .selected supporters => pure (some (root, supporters))

/-- The coordinator with `children` registered for the obligation of `root`. -/
def withChildren (root : Nat) (children : List ExactAtMostTask) : ExactAtMostCoordinator :=
  let state := coordinator.assistanceState
  let taskCount := coordinator.tasks.length + children.length
  { coordinator with
    tasks := coordinator.tasks ++ children
    received := coordinator.received ++ List.replicate children.length false
    assistance := some {
      roots := state.roots.modify root fun obligation =>
        { obligation with children := some (coordinator.tasks.length, taskCount) }
      taskRoots := state.taskRoots ++ List.replicate children.length root
      retired := state.retired ++ List.replicate children.length false } }

def stageIdleAssist (host : Host) (maximumChildren : Nat) :
    Hosted (Option ExactAtMostCoordinator) :=
  let roots := coordinator.assistanceState.roots
  let added := coordinator.tasks.length - roots.length
  let groups := roots.countP (·.children.isSome)
  if maxAssistGroups ≤ groups ∨ maxAssistTasks ≤ added then pure none
  else do
    match ← coordinator.selectPivot host (min maximumChildren (maxAssistTasks - added))
        (List.range roots.length) 0 with
    | none => pure none
    | some (root, supporters) =>
      match coordinator.tasks[root]? with
      | none => pure none
      | some parent => do
        -- The vectors are staged one by one, each with its own admission.
        coordinator.tasks.forM fun _ => host.poll
        let children ← childTasks host coordinator.query parent (coordinator.tasks.length + ·) []
          supporters
        host.poll
        return some (coordinator.withChildren root children)

end ExactAtMostCoordinator

open Lib.Fallible in
def prepareIdleAssist (host : Host) (issuedPrefix maximumChildren : Nat) :
    Lib.Fallible ExactAtMostCoordinator ExactAtMostParallelError Bool := do
  let maximumChildren := min maximumChildren ExactAtMostCoordinator.maxAssistChildren
  let coordinator ← read
  if maximumChildren < 2 ∨ issuedPrefix ≠ coordinator.tasks.length ∨
      ¬coordinator.decision.isPending then pure false
  else
    match (do host.poll; coordinator.stageIdleAssist host maximumChildren : Hosted _) 0 with
    | .ok (some staged, _) => do
      update fun _ => staged
      pure true
    | .ok (none, _) => pure false
    | .error (.exact _) => pure false
    | .error error => lift (.error error)

end Clearra.Cover
