import Clearra.Executor.LockCache
import Clearra.Lib.Stamped

/-!
# Build orders of a candidate

A candidate is a set of skeleton rows that tiles the required cells; the question is in which
orders, and by which locks, its pieces can be placed. `CandidateProjection` says what the board is
once a given subset of them has been placed — in the target's frame, where the subset alone
determines it — and `BuildOrderGraph` has one node per subset that is met and one edge per lock.

Three things decide which locks become edges. In the ordinary mode they are the grounded locks the
workspace can reach; where only the language of pieces is wanted, one of those per operation; and
where a finesse pass comes after, every lock that fits. The legal-board admission is off here, and
the realization-feasibility prepass is what the source compiles it to: disabled.
-/

namespace Clearra.Executor

open Lib

/-- A set of operations of a candidate. -/
abbrev Subset := BitVec 16

/-- Skeleton rows of the catalog. -/
structure GeometryCandidate (catalog : GeometryCatalog) where
  rowIds : List Nat
  valid : ∀ id ∈ rowIds, id < catalog.skeletons.length

namespace GeometryCandidate

variable {catalog : GeometryCatalog}

/-- `catalog.skeleton(candidate.row_ids()[operation])`. -/
def row? (candidate : GeometryCandidate catalog) (operation : Nat) : Option SkeletonRow :=
  candidate.rowIds[operation]?.bind (catalog.skeletons[·]?)

/-- The rows in operation order. -/
def rows (candidate : GeometryCandidate catalog) : List SkeletonRow :=
  candidate.rowIds.filterMap (catalog.skeletons[·]?)

end GeometryCandidate

def maxBoard64Pieces : Nat := 15

/-! ## The projection -/

structure CandidateProjection where
  operationCells : List Board
  rowContributors : Nat → Subset
  width : Nat
  height : Nat
  initialBoard : Board
  completedTargetRows : Rows
  states : Stamped (Board × Rows)

namespace CandidateProjection

/-- The operations with a cell in the row. -/
def contributors (width : Nat) (operationCells : List Board) (row : Nat) : Subset :=
  operationCells.zipIdx.foldl
    (fun contributors operation =>
      if hasRow (occupiedRows width operation.1) row then contributors ||| rowBit operation.2
      else contributors)
    0

/-- The rows a board fills. -/
def fullRows (width height : Nat) (board : Board) : Rows :=
  (List.range height).foldl
    (fun rows row => if boardRow width board row = fullRowMask width then rows ||| rowBit row else rows)
    0

def compile (catalog : GeometryCatalog) (candidate : GeometryCandidate catalog)
    (states : Stamped (Board × Rows)) : Except WasmExactSearchError CandidateProjection :=
  let operationCount := candidate.rowIds.length
  if operationCount = 0 ∨ operationCount > maxBoard64Pieces then
    .error (.invalidProblem "wasm_candidate_projection_operation_count_invalid")
  else
    let operationCells := candidate.rows.map SkeletonRow.cells
    let rowContributors := contributors catalog.width operationCells
    if (List.range catalog.height).any fun row =>
        boardRow catalog.width catalog.initialBoard row = fullRowMask catalog.width &&
          rowContributors row = 0 then
      .error (.invalidProblem "wasm_initial_full_row_requires_preclear_normalization")
    else
      let finalBoard := operationCells.foldl (· ||| ·) catalog.initialBoard
      .ok
        { operationCells, rowContributors
          width := catalog.width
          height := catalog.height
          initialBoard := catalog.initialBoard
          completedTargetRows := fullRows catalog.width catalog.height finalBoard
          states := states.fresh (2 ^ operationCount) (0, 0) }

def operationCount (p : CandidateProjection) : Nat := p.operationCells.length

/-- `state_count - 1`. -/
def allPlaced (p : CandidateProjection) : Subset := BitVec.ofNat 16 (2 ^ p.operationCount - 1)

/-- The completed rows all of whose contributors are placed. -/
def expectedDeletedRows (p : CandidateProjection) (subset : Subset) : Rows :=
  (List.range p.height).foldl
    (fun deleted row =>
      if hasRow p.completedTargetRows row ∧ p.rowContributors row ≠ 0 ∧
          (p.rowContributors row &&& ~~~subset) = 0 then deleted ||| rowBit row
      else deleted)
    0

/-- The target cells filled once the subset is placed. -/
def logicalBoard (p : CandidateProjection) (subset : Subset) : Board :=
  p.operationCells.zipIdx.foldl
    (fun board operation => if subset.getLsbD operation.2 then board ||| operation.1 else board)
    p.initialBoard

/-- What `state` computes for a subset it has not met. -/
def computeState (p : CandidateProjection) (subset : Subset) : Board × Rows :=
  let deleted := p.expectedDeletedRows subset
  (compactTargetBoard p.width p.height (p.logicalBoard subset) deleted, deleted)

/-- `state`: the board and the deleted rows, remembered. -/
def state (p : CandidateProjection) (subset : Subset) : (Board × Rows) × CandidateProjection :=
  match p.states.get? subset.toNat with
  | some known => (known, p)
  | none =>
    let computed := p.computeState subset
    (computed, { p with states := p.states.set subset.toNat computed })

end CandidateProjection

inductive BuildCompletion where
  | clearToEmpty
  | exactBoardAfterLineClears (expected : Board)
  deriving DecidableEq

namespace BuildCompletion

/-- The board the completion asks for. -/
def expected : BuildCompletion → Board
  | clearToEmpty => 0
  | exactBoardAfterLineClears expected => expected

def accepts (completion : BuildCompletion) (p : CandidateProjection) (subset : Subset) :
    Bool × CandidateProjection :=
  let ((board, _), p) := p.state subset
  (board = completion.expected, p)

end BuildCompletion

inductive BuildReachabilityMode where
  | existing
  | geometryOnly
  deriving DecidableEq

/-- The handle the feasibility prepass returns. It alone can build one, and being disabled it
    builds only the one of generation zero, under which no subset is proven infeasible. -/
structure RealizationFeasibility where
  generation : Nat
  operationCount : Nat
  deriving DecidableEq

namespace RealizationFeasibility

/-- `analyze` with the prepass disabled. -/
def analyze (operationCount : Nat) : RealizationFeasibility := ⟨0, operationCount⟩

/-- There being no partial dependency graph: what is not placed. -/
def permittedOperationMask (proof : RealizationFeasibility) (subset : Subset) : Subset :=
  if proof.operationCount = 0 ∨ proof.operationCount > maxBoard64Pieces then BitVec.allOnes 16
  else BitVec.ofNat 16 (2 ^ proof.operationCount - 1) &&& ~~~subset

end RealizationFeasibility

/-! ## Edges and nodes -/

/-- `target` is the source's `to`: a subset while the edge is being collected, then a node. -/
structure BuildEdge where
  target : Nat
  operationIndex : Nat
  piece : PieceKind
  rotation : RotationState
  x : Int
  y : Int
  clearedLines : Nat
  deriving DecidableEq

namespace BuildEdge

/-- The sort key of the edges of a node. -/
def ordKey (e : BuildEdge) : Nat ×ₗ Nat ×ₗ PieceKind ×ₗ RotationState ×ₗ Int ×ₗ Int ×ₗ Nat :=
  toLex (e.target, toLex (e.operationIndex, toLex (e.piece, toLex (e.rotation, toLex (e.x,
    toLex (e.y, e.clearedLines))))))

theorem ordKey_injective : Function.Injective ordKey := by
  rintro ⟨a, b, c, d, e, f, g⟩ ⟨a', b', c', d', e', f', g'⟩ h
  simp only [ordKey, EmbeddingLike.apply_eq_iff_eq, Prod.mk.injEq] at h
  obtain ⟨rfl, rfl, rfl, rfl, rfl, rfl, rfl⟩ := h
  rfl

instance : LinearOrder BuildEdge := LinearOrder.lift' ordKey ordKey_injective

end BuildEdge

structure BuildNode where
  edgeStart : Nat
  edgeCount : Nat
  pieceEdgeStart : Nat
  pieceEdgeCount : Nat
  depth : Nat
  live : Bool
  accepting : Bool
  deriving DecidableEq, Inhabited

structure BuildOrderGraph where
  nodes : List BuildNode
  edges : List BuildEdge
  pieceEdges : List BuildEdge
  pieceEdgesShareOperationEdges : Bool
  root : Nat

namespace BuildOrderGraph

/-- `edges(node_index)`. -/
def edgesOf (graph : BuildOrderGraph) (node : BuildNode) : List BuildEdge :=
  slice graph.edges node.edgeStart (node.edgeStart + node.edgeCount)

end BuildOrderGraph

/-! ## Collecting the edges of a node -/

/-- What the construction is given and does not change. -/
structure BuildRequest where
  catalog : GeometryCatalog
  candidate : GeometryCandidate catalog
  pieceLanguageProjectionOnly : Bool
  completion : BuildCompletion
  feasibility : Option RealizationFeasibility
  reachabilityMode : BuildReachabilityMode
  /-- Whether the reachability cache finds storage. -/
  storage : Bool

/-- What it changes: the projection's table and the reachability workspace. -/
structure BuildSession where
  projection : CandidateProjection
  reachability : ReachabilityWorkspace

/-- `geometric_build_edge`. -/
def geometricBuildEdge (catalog : GeometryCatalog) (projection : CandidateProjection)
    (child : Subset) (operationIndex : Nat) (piece : PieceKind) (board : Board)
    (deletedRows : Rows) (realization : InstantiatedRealization) :
    Option BuildEdge × CandidateProjection :=
  if (board &&& realization.lockMask) ≠ 0 then (none, projection)
  else
    let (nextBoard, clearedCurrent, clearedLines) :=
      placeAndClear catalog.width catalog.height (board ||| realization.lockMask)
    match mergeDeletedRows catalog.height deletedRows clearedCurrent with
    | none => (none, projection)
    | some nextDeletedRows =>
      let ((expectedBoard, expectedDeletedRows), projection) := projection.state child
      if nextDeletedRows ≠ expectedDeletedRows ∨ nextBoard ≠ expectedBoard then (none, projection)
      else
        (some ⟨child.toNat, operationIndex, piece, realization.rotation, realization.x,
          realization.lockY, clearedLines⟩, projection)

/-- One operation that could come next at a node. -/
structure BuildChoice where
  operationIndex : Nat
  child : Subset
  piece : PieceKind
  board : Board
  deletedRows : Rows

namespace BuildRequest

def geometricEdge (request : BuildRequest) (session : BuildSession) (choice : BuildChoice)
    (realization : InstantiatedRealization) : Option BuildEdge × BuildSession :=
  let (edge, projection) := geometricBuildEdge request.catalog session.projection choice.child
    choice.operationIndex choice.piece choice.board choice.deletedRows realization
  (edge, { session with projection })

/-- `placement_is_grounded`, then `geometric_build_edge`. -/
def groundedEdge (request : BuildRequest) (session : BuildSession) (choice : BuildChoice)
    (realization : InstantiatedRealization) : Option BuildEdge × BuildSession :=
  if placementIsGrounded request.catalog.width choice.board realization.lockMask then
    request.geometricEdge session choice realization
  else (none, session)

/-- `GeometryOnly`: every realization that fits. -/
def geometryEdges (request : BuildRequest) (choice : BuildChoice) :
    List InstantiatedRealization → BuildSession → List BuildEdge × BuildSession
  | [], session => ([], session)
  | realization :: rest, session =>
    let (edge, session) := request.geometricEdge session choice realization
    let (edges, session) := request.geometryEdges choice rest session
    (edge.toList ++ edges, session)

/-- The ordinary mode: every grounded realization the workspace reaches. `none` is a search that
    did not end. -/
def reachableEdges (request : BuildRequest) (choice : BuildChoice) :
    List InstantiatedRealization → BuildSession → Option (List BuildEdge × BuildSession)
  | [], session => some ([], session)
  | realization :: rest, session =>
    match request.groundedEdge session choice realization with
    | (none, session) => request.reachableEdges choice rest session
    | (some edge, session) => do
      let (reachable, reachability) ← session.reachability.lockReachableInstantiated request.storage
        request.catalog.width request.catalog.height choice.board choice.piece realization
      let (edges, session) ← request.reachableEdges choice rest { session with reachability }
      some (if reachable then edge :: edges else edges, session)

/-- The first pass for a representative: the grounded edges up to the first hard drop, and it. -/
def harddropScan (request : BuildRequest) (choice : BuildChoice) :
    List InstantiatedRealization → BuildSession → (List BuildEdge × Option BuildEdge) × BuildSession
  | [], session => (([], none), session)
  | realization :: rest, session =>
    match request.groundedEdge session choice realization with
    | (none, session) => request.harddropScan choice rest session
    | (some edge, session) =>
      if ReachabilityWorkspace.lockHarddropReachable request.catalog.width choice.board realization
      then (([edge], some edge), session)
      else
        let ((edges, dropped), session) := request.harddropScan choice rest session
        ((edge :: edges, dropped), session)

/-- The second pass: the first of them a search reaches. -/
def firstReachable (request : BuildRequest) (choice : BuildChoice) :
    List BuildEdge → ReachabilityWorkspace → Option (Option BuildEdge × ReachabilityWorkspace)
  | [], reachability => some (none, reachability)
  | edge :: rest, reachability => do
    let (reachable, reachability) ← reachability.lockReachableCached request.storage
      request.catalog.width request.catalog.height choice.board choice.piece edge.rotation edge.x
      edge.y
    if reachable then some (some edge, reachability)
    else request.firstReachable choice rest reachability

/-- `piece_language_projection_only`: one representative, if there is a reachable realization. -/
def representativeEdges (request : BuildRequest) (choice : BuildChoice)
    (realizations : List InstantiatedRealization) (session : BuildSession) :
    Option (List BuildEdge × BuildSession) :=
  match request.harddropScan choice realizations session with
  | ((_, some edge), session) => some ([edge], session)
  | (([], none), session) => some ([], session)
  | ((edges, none), session) => do
    let (selected, reachability) ← request.firstReachable choice edges
      (session.reachability.prepareTemplate request.catalog.width request.catalog.height)
    some (selected.toList, { session with reachability })

/-- The edges one operation contributes. -/
def operationEdges (request : BuildRequest) (choice : BuildChoice) (rowId : Nat)
    (session : BuildSession) : Option (List BuildEdge × BuildSession) :=
  let realizations := request.catalog.instantiations rowId choice.deletedRows
  if request.reachabilityMode = .geometryOnly then
    some (request.geometryEdges choice realizations session)
  else if request.pieceLanguageProjectionOnly then
    request.representativeEdges choice realizations session
  else request.reachableEdges choice realizations session

/-- `permitted_operations`. -/
def permittedMask (request : BuildRequest) (operationCount : Nat) (subset : Subset) : Subset :=
  match request.feasibility with
  | none => BitVec.ofNat 16 (2 ^ operationCount - 1) &&& ~~~subset
  | some proof => proof.permittedOperationMask subset

/-- The operations that may come next, in ascending order. -/
def permittedOperations (request : BuildRequest) (operationCount : Nat) (subset : Subset) :
    List Nat :=
  (List.range 16).filter fun operation =>
    (request.permittedMask operationCount subset).getLsbD operation

def collectEdges (request : BuildRequest) (subset : Subset) (board : Board) (deletedRows : Rows) :
    List Nat → BuildSession → Option (List BuildEdge × BuildSession)
  | [], session => some ([], session)
  | operation :: rest, session =>
    match request.candidate.rowIds[operation]?, request.candidate.row? operation with
    | some rowId, some row => do
      let (edges, session) ← request.operationEdges
        ⟨operation, subset ||| rowBit operation, row.piece, board, deletedRows⟩ rowId session
      let (more, session) ← request.collectEdges subset board deletedRows rest session
      some (edges ++ more, session)
    | _, _ => request.collectEdges subset board deletedRows rest session

end BuildRequest

/-! ## The graph -/

/-- The graph so far, the subsets queued and the node of each. -/
structure BuildProgress where
  nodes : List BuildNode
  edges : List BuildEdge
  pieceEdges : List BuildEdge
  queue : List Subset
  nodeIds : Stamped Nat

namespace BuildProgress

/-- The node of the edge's subset, made if it has none. -/
def resolve (progress : BuildProgress) (edge : BuildEdge) : BuildEdge × BuildProgress :=
  match progress.nodeIds.get? edge.target with
  | some node => ({ edge with target := node }, progress)
  | none =>
    let node := progress.nodes.length
    ({ edge with target := node },
      { progress with
        nodes := progress.nodes ++
          [⟨0, 0, 0, 0, countOnes (BitVec.ofNat 16 edge.target), false, false⟩]
        queue := progress.queue ++ [BitVec.ofNat 16 edge.target]
        nodeIds := progress.nodeIds.set edge.target node })

def resolveAll : List BuildEdge → BuildProgress → List BuildEdge × BuildProgress
  | [], progress => ([], progress)
  | edge :: rest, progress =>
    let (edge, progress) := progress.resolve edge
    let (edges, progress) := resolveAll rest progress
    (edge :: edges, progress)

/-- Of neighbouring edges with the same target and piece, the first. -/
def pieceTransitions : Option (Nat × PieceKind) → List BuildEdge → List BuildEdge
  | _, [] => []
  | previous, edge :: rest =>
    if previous = some (edge.target, edge.piece) then pieceTransitions previous rest
    else edge :: pieceTransitions (some (edge.target, edge.piece)) rest

end BuildProgress

namespace BuildRequest

def sharePieceEdges (request : BuildRequest) : Bool :=
  request.pieceLanguageProjectionOnly && request.completion = .clearToEmpty

/-- One turn of the construction loop: the node of the subset under the cursor. -/
def expand (request : BuildRequest) (subset : Subset) (progress : BuildProgress)
    (session : BuildSession) : Option (BuildProgress × BuildSession) :=
  let nodeIndex := (progress.nodeIds.get? subset.toNat).getD 0
  let edgeStart := progress.edges.length
  let pieceEdgeStart :=
    if request.sharePieceEdges then progress.edges.length else progress.pieceEdges.length
  if subset = session.projection.allPlaced then
    let (accepting, projection) := request.completion.accepts session.projection subset
    some
      ({ progress with
          nodes := progress.nodes.modify nodeIndex fun node =>
            { node with edgeStart, pieceEdgeStart, accepting, live := accepting } },
        { session with projection })
  else do
    let ((board, deletedRows), projection) := session.projection.state subset
    let (collected, session) ← request.collectEdges subset board deletedRows
      (request.permittedOperations projection.operationCount subset) { session with projection }
    let (edges, progress) := BuildProgress.resolveAll (sortDedup collected) progress
    let pieceEdges :=
      if request.sharePieceEdges then [] else BuildProgress.pieceTransitions none edges
    some
      ({ progress with
          nodes := progress.nodes.modify nodeIndex fun node =>
            { node with
              edgeStart, pieceEdgeStart
              edgeCount := edges.length
              pieceEdgeCount := if request.sharePieceEdges then edges.length else pieceEdges.length }
          edges := progress.edges ++ edges
          pieceEdges := progress.pieceEdges ++ pieceEdges },
        session)

/-- The construction loop; `none` also when the fuel is spent, which `build`'s is not. -/
def buildLoop (request : BuildRequest) :
    Nat → Nat → BuildProgress → BuildSession → Option (BuildProgress × BuildSession)
  | fuel, cursor, progress, session =>
    match progress.queue[cursor]? with
    | none => some (progress, session)
    | some subset =>
      match fuel with
      | 0 => none
      | fuel + 1 => do
        let (progress, session) ← request.expand subset progress session
        request.buildLoop fuel (cursor + 1) progress session

end BuildRequest

/-- A node is live if it was, or if an edge leads to a live one. -/
def liveStep (edges : List BuildEdge) (nodes : List BuildNode) (index : Nat) : List BuildNode :=
  nodes.modify index fun node =>
    { node with
      live := node.live || (slice edges node.edgeStart (node.edgeStart + node.edgeCount)).any
        fun edge => (nodes.getD edge.target default).live }

/-- The sweep from the last node to the first. -/
def propagateLive (edges : List BuildEdge) (nodes : List BuildNode) : List BuildNode :=
  (List.range nodes.length).reverse.foldl (liveStep edges) nodes

/-- `BuildOrderGraph::build` without legal-board admission. `nodeIds` is the workspace's table. -/
def BuildRequest.build (request : BuildRequest) (session : BuildSession) (nodeIds : Stamped Nat) :
    Except WasmExactSearchError (Option (BuildOrderGraph × BuildSession)) :=
  if request.candidate.rowIds.length > 15 then
    .error (.invalidProblem "wasm_buildup_operation_count_exceeds_bitset")
  else
    let stateCount := 2 ^ session.projection.operationCount
    let progress : BuildProgress :=
      ⟨[⟨0, 0, 0, 0, 0, false, false⟩], [], [], [0], (nodeIds.fresh stateCount 0).set 0 0⟩
    .ok ((request.buildLoop stateCount 0 progress session).map fun (progress, session) =>
      (⟨propagateLive progress.edges progress.nodes, progress.edges, progress.pieceEdges,
        request.sharePieceEdges, 0⟩, session))

end Clearra.Executor
