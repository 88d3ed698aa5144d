import Clearra.Proof.Executor.BuildPaths

/-!
# The build-order graph is exact

The statement about `BuildOrderGraph::build` as its callers meet it: a catalog that compiled, a
candidate that tiles the target, the projection compiled for it, and a reachability workspace with
any past. Nothing is asked of the workspace's cache except that it came about by the workspace's own
operations.
-/

namespace Clearra.Proof.Executor

open Clearra.Executor Lib CandidateProjection
open Clearra.Rules

/-! ## Pasts of a workspace -/

/-- How a workspace can have come about. The questions are those of callers that refuse a kick
    profile which is not built in and boards over 64 cells. -/
inductive WorkspaceHistory : ReachabilityWorkspace → Prop
  | initial : WorkspaceHistory .initial
  | configure {ws : ReachabilityWorkspace} (entries : Nat) :
      WorkspaceHistory ws → WorkspaceHistory (ws.configure entries)
  | configureKickProfile {ws : ReachabilityWorkspace} (profileId : KickTableProfileId) :
      WorkspaceHistory ws → WorkspaceHistory (ws.configureKickProfile profileId)
  | prepareTemplate {ws : ReachabilityWorkspace} (width height : Nat) :
      WorkspaceHistory ws → WorkspaceHistory (ws.prepareTemplate width height)
  | asked {ws ws' : ReachabilityWorkspace} {storage answer : Bool} {width height : Nat}
      {profile : KickTableProfile} {board : Board} {piece : PieceKind} {rotation : RotationState}
      {x y : Int} : WorkspaceHistory ws → 0 < height → width * height ≤ 64 → y < (height : Int) →
      builtinKickProfile ws.kickProfileId = some profile →
      ws.templateDimensions = some (width, height) →
      ws.lockReachableCached storage width height board piece rotation x y = some (answer, ws') →
      WorkspaceHistory ws'

theorem WorkspaceHistory.sound {ws : ReachabilityWorkspace} (h : WorkspaceHistory ws) :
    WorkspaceSound ws := by
  induction h with
  | initial => exact workspaceSound_initial
  | configure entries _ ih => exact ih.configure entries
  | configureKickProfile profileId _ ih => exact ih.configureKickProfile profileId
  | prepareTemplate width height _ ih => exact (ih.prepareTemplate width height).1
  | asked _ hheight hcells hy hprofile hdims hasked ih =>
    obtain ⟨answer', ws'', heq, hsound, -⟩ := lockReachableCached_spec ih _ hheight hcells hprofile
      hdims _ _ _ hy
    rw [hasked] at heq
    obtain ⟨-, rfl⟩ := Prod.mk.inj (Option.some.inj heq)
    exact hsound

/-! ## The build -/

section

variable {width height : Nat} {initialBoard requiredCells : Board} {request : BuildRequest}
  {p : CandidateProjection} {profile : KickTableProfile}

theorem loopInv_root (hb : BuildProblem width height initialBoard requiredCells request p)
    (nodeIds : Stamped Nat) :
    LoopInv request profile p 0 ⟨[⟨0, 0, 0, 0, 0, false, false⟩], [], [], [0],
      (nodeIds.fresh (2 ^ p.operationCount) 0).set 0 0⟩ := by
  have hone : ∀ {i : Nat} {α : Type} {a b : α}, [a][i]? = some b → i = 0 ∧ b = a := by
    intro i α a b h
    cases i with
    | zero => exact ⟨rfl, (Option.some.inj h).symm⟩
    | succ i => simp at h
  refine ⟨⟨rfl, List.nodup_singleton _, fun subset i => ?_, ?_, ?_⟩, ⟨?_, ?_⟩, rfl, Nat.zero_le _,
    fun i _ _ hi => absurd hi (Nat.not_lt_zero i), fun i node _ hnode => ?_⟩
  · constructor
    · intro hget
      rcases Stamped.get?_set_cases hget with ⟨hzero, rfl⟩ | hold
      · rw [BitVec.eq_of_toNat_eq (hzero.trans rfl : subset.toNat = (0 : Subset).toNat)]
        rfl
      · simp at hold
    · intro hqueue
      obtain ⟨rfl, rfl⟩ := hone hqueue
      exact Stamped.get?_set_self
        (Nat.lt_of_lt_of_le (Nat.two_pow_pos _) (nodeIds.le_size_fresh _ _)) 0
  · rw [Stamped.size_set, ← hb.projects.operationCount]
    exact nodeIds.le_size_fresh _ _
  · intro subset hsub
    rw [List.mem_singleton.mp hsub]
    intro t ht
    simp at ht
  · intro i j a b _ ha hb'
    rw [(hone ha).2, (hone hb').2]
  · intro j a b ha hb'
    rw [(hone ha).2, (hone hb').2]
    exact Nat.le_succ _
  · rw [(hone hnode).2]
    exact ⟨rfl, rfl, rfl⟩

theorem build_ordersExact (hb : BuildProblem width height initialBoard requiredCells request p)
    {ws : ReachabilityWorkspace} (hs : SessionOk profile p ⟨p, ws⟩) (nodeIds : Stamped Nat) :
    ∃ graph session subsets, request.build ⟨p, ws⟩ nodeIds = .ok (some (graph, session)) ∧
      OrdersExact request profile p graph subsets := by
  have hcount := hb.projects.count_le
  obtain ⟨g, s, hrun, hinv⟩ := buildLoop_spec hb (2 ^ p.operationCount) 0 _ ⟨p, ws⟩
    (loopInv_root hb nodeIds) hs (by rw [hb.projects.operationCount]; omega)
  refine ⟨_, s, g.queue, ?_, (hinv.graphExact hb request.sharePieceEdges).ordersExact hb⟩
  rw [BuildRequest.build, if_neg (by omega)]
  dsimp only
  rw [hrun]
  rfl

/-- A freshly compiled projection remembers nothing yet. -/
theorem compile_sessionOk {states : Stamped (Board × Rows)}
    (hprojection : compile request.catalog request.candidate states = .ok p)
    {ws : ReachabilityWorkspace} (hws : WorkspaceHistory ws)
    (hprofile : builtinKickProfile ws.kickProfileId = some profile) :
    SessionOk profile p ⟨p, ws⟩ := by
  refine ⟨rfl, fun subset v hv => ?_, hws.sound, hprofile⟩
  dsimp only at hv
  rw [(compile_projects hprojection).2.2] at hv
  simp at hv

variable {buildTarget : Bool} {storage : CatalogStorage} {states : Stamped (Board × Rows)}
  {ws : ReachabilityWorkspace}
  (hcatalog : compileWithClearRowDomain width height initialBoard requiredCells buildTarget
    storage = .ok request.catalog)
  (htiling : IsTiling width height initialBoard requiredCells request.candidate)
  (hprojection : compile request.catalog request.candidate states = .ok p)
  (hfeasibility : request.feasibility = none ∨
    request.feasibility = some (.analyze request.candidate.rowIds.length))
include hcatalog htiling hprojection hfeasibility

theorem buildProblem_of_compile :
    BuildProblem width height initialBoard requiredCells request p :=
  ⟨⟨buildTarget, compile_isCatalog hcatalog⟩, htiling, (compile_projects hprojection).1,
    hfeasibility, (compile_projects hprojection).2.1⟩

/-- **The build-order graph is confluent and exact.** Locking instantiated realizations in any
    order, under any side condition, leaves after a set of operations the board and the deleted rows
    the projection states for that set. The build succeeds, and its paths are the legal orders that
    end on the completion's board, in the sense of `OrdersExact`: all of them with all their
    realizations, or, where one edge per operation is kept, all their operation orders. A node is
    live iff it has such an order, in every mode. -/
theorem buildOrderGraph_exact
    (hws : WorkspaceHistory ws) (hprofile : builtinKickProfile ws.kickProfileId = some profile)
    (nodeIds : Stamped Nat) :
    (∀ (allowed : Board → PieceKind → InstantiatedRealization → Prop) (locks : List Lock)
        (subset : Subset) (board : Board) (deleted : Rows),
      LockRun request.catalog request.candidate allowed 0 initialBoard 0 locks subset board deleted →
        (p.state subset).1 = (board, deleted)) ∧
    ∃ graph session subsets, request.build ⟨p, ws⟩ nodeIds = .ok (some (graph, session)) ∧
      OrdersExact request profile p graph subsets := by
  have hb := buildProblem_of_compile hcatalog htiling hprojection hfeasibility
  have hs := compile_sessionOk hprojection hws hprofile
  refine ⟨fun allowed locks subset board deleted hrun => ?_, build_ordersExact hb hs nodeIds⟩
  have hcat := compile_isCatalog hcatalog
  rw [(hs.state subset).1]
  exact (lockRun_state hcat htiling hb.projects hrun (computeState_zero hcat hb.projects).symm).symm

end

/-! ## One O on a two by two board -/

/-- The request for a candidate, empty board asked for, reachability tested. -/
def clearRequest {catalog : GeometryCatalog} (candidate : GeometryCandidate catalog)
    (projectionOnly : Bool) : BuildRequest :=
  ⟨catalog, candidate, projectionOnly, .clearToEmpty, none, .existing, true⟩

/-- The O in a given rotation: its cells are the same four in each. -/
def lockO (rotation : RotationState) : Lock := ⟨0, ⟨0xF, rotation, 0, 0⟩⟩

/-- The catalog of the board has a row for the O, and the O alone tiles the target. -/
theorem exists_single_O : ∃ (catalog : GeometryCatalog) (candidate : GeometryCandidate catalog)
    (rowId : Nat) (row : SkeletonRow) (p : CandidateProjection) (profile : KickTableProfile),
    compileWithClearRowDomain 2 2 0 0xF true ⟨true, true, .ok (), true⟩ = .ok catalog ∧
      candidate.rowIds = [rowId] ∧ catalog.skeletons[rowId]? = some row ∧ row.piece = .O ∧
      row.cells = 0xF ∧ IsTiling 2 2 0 0xF candidate ∧
      compile catalog candidate .empty = .ok p ∧
      builtinKickProfile ReachabilityWorkspace.initial.kickProfileId = some profile := by
  obtain ⟨catalog, hok⟩ : ∃ catalog, compileWithClearRowDomain 2 2 0 0xF true
      ⟨true, true, .ok (), true⟩ = .ok catalog := ⟨_, rfl⟩
  have hcat := compile_isCatalog hok
  have hin : Inside 2 2 0 .O .zero 0 0 := by
    unfold Inside
    decide
  obtain ⟨rowId, row, hrow, hpiece, hcells⟩ := hcat.exists_skeleton
    (fun t ht => absurd ht (by simp)) (by simp) hin fun k hk => hk
  have hcells' : row.cells = 0xF := hcells.trans (by decide)
  have hvalid : ∀ id ∈ [rowId], id < catalog.skeletons.length := by
    intro id hid
    rw [List.mem_singleton.mp hid]
    exact (List.getElem?_eq_some_iff.mp hrow).1
  have honly : ∀ {i : Nat} {row' : SkeletonRow},
      GeometryCandidate.row? (⟨[rowId], hvalid⟩ : GeometryCandidate catalog) i = some row' →
        i = 0 ∧ row' = row := by
    intro i row' hrow'
    cases i with
    | zero => exact ⟨rfl, Option.some.inj (hrow'.symm.trans hrow)⟩
    | succ i => exact absurd hrow' (by simp [GeometryCandidate.row?])
  have htiling : IsTiling 2 2 0 0xF (⟨[rowId], hvalid⟩ : GeometryCandidate catalog) := by
    refine ⟨fun hi hj hne => ?_, fun k => ⟨fun hk => ?_, ?_⟩, fun r hr _ => ?_⟩
    · exact absurd ((honly hi).1.trans (honly hj).1.symm) hne
    · exact ⟨0, row, hrow, by rw [hcells']; exact hk⟩
    · rintro ⟨i, row', hrow', hk⟩
      rw [(honly hrow').2, hcells'] at hk
      exact hk
    · have hfirst : ∀ r < 2, BitVec.getLsbD (0xF : Board) (2 * r) = true ∧ 2 * r / 2 = r := by
        decide
      exact ⟨2 * r, hfirst r hr⟩
  -- no row is full to begin with
  have hrows : ((List.range catalog.height).any fun r =>
      decide (boardRow catalog.width catalog.initialBoard r = fullRowMask catalog.width) &&
        decide (contributors catalog.width
          ((GeometryCandidate.rows (⟨[rowId], hvalid⟩ : GeometryCandidate catalog)).map
            SkeletonRow.cells) r = 0)) = false := by
    rw [List.any_eq_false, hcat.height_eq, hcat.width_eq, hcat.initial_eq]
    intro r hr
    have hempty : ∀ r < 2, decide (boardRow 2 0 r = fullRowMask 2) = false := by decide
    rw [hempty r (List.mem_range.mp hr), Bool.false_and]
    simp
  obtain ⟨p, hp⟩ : ∃ p, compile catalog ⟨[rowId], hvalid⟩ .empty = .ok p := by
    rw [compile]
    dsimp only
    rw [if_neg (by simp [maxBoard64Pieces]), hrows, if_neg (by simp)]
    exact ⟨_, rfl⟩
  exact ⟨catalog, ⟨[rowId], hvalid⟩, rowId, row, p, _, hok, rfl, hrow, hpiece, hcells', htiling, hp,
    rfl⟩

/-- Each of the O's rotations is a legal order of its own: the lock falls straight down. -/
theorem completes_lockO {catalog : GeometryCatalog} {candidate : GeometryCandidate catalog}
    {rowId : Nat} {row : SkeletonRow} {p : CandidateProjection} {projectionOnly : Bool}
    (hb : BuildProblem 2 2 0 0xF (clearRequest candidate projectionOnly) p)
    (hids : candidate.rowIds = [rowId]) (hrow : catalog.skeletons[rowId]? = some row)
    (hpiece : row.piece = .O) (hcells : row.cells = 0xF) (profile : KickTableProfile)
    (rotation : RotationState) :
    Completes (clearRequest candidate projectionOnly) profile p 0 (p.computeState 0).1
      (p.computeState 0).2 [lockO rotation] := by
  obtain ⟨buildTarget, hcat⟩ := hb.catalog
  have hstate := computeState_zero hcat hb.projects
  change IsCatalog 2 2 0 0xF _ catalog at hcat
  have hid : candidate.rowIds[0]? = some rowId := by rw [hids]; rfl
  have hinst : (lockO rotation).realization ∈ catalog.instantiations rowId (p.computeState 0).2 := by
    rw [hstate]
    refine (hcat.mem_instantiations (fun t ht => absurd ht (by simp)) (by simp) hrow).mpr ?_
    rw [hpiece, hcells]
    refine ⟨?_, ?_, ?_⟩
    · unfold Inside
      revert rotation
      decide
    · revert rotation
      decide
    · revert rotation
      decide
  have hallowed : Allowed (clearRequest candidate projectionOnly) profile (p.computeState 0).1
      row.piece (lockO rotation).realization := by
    refine .inr ?_
    rw [hstate]
    change placementIsGrounded catalog.width 0 0xF = true ∧
      WorkspaceReaches catalog.width catalog.height profile 0 row.piece (lockO rotation).realization
    rw [hcat.width_eq]
    have hdrop : ∀ r, ReachabilityWorkspace.lockHarddropReachable 2 0 (lockO r).realization =
        true := by decide
    exact ⟨by decide, Or.inl (hdrop rotation)⟩
  obtain ⟨-, -, cleared, hclear, -⟩ :=
    lock_step hcat hb.tiling hb.projects (i := 0) (by simp) hid hinst
  have hall : (0 : Subset) ||| rowBit 0 = p.allPlaced := by
    rw [allPlaced, hb.projects.operationCount]
    change _ = BitVec.ofNat 16 (2 ^ candidate.rowIds.length - 1)
    rw [hids, List.length_singleton]
    decide
  refine (completes_cons_iff hb).mpr
    ⟨⟨_, by simp, rowId, row, hid, hrow, hinst, hallowed, rfl⟩, completes_nil_iff.mpr ⟨hall, ?_⟩⟩
  -- the O fills both rows, and both clear
  have hboard := congrArg Prod.fst hclear
  rw [hstate] at hboard
  have hcleared : ∀ r, (placeAndClear 2 2 (0 ||| (lockO r).realization.lockMask)).1 = 0 := by
    decide
  exact hboard.symm.trans (hcleared rotation)

/-- With all realizations kept, the graph of the O has a path for each of its rotations. -/
theorem buildOrderGraph_exact_single_O : ∃ (catalog : GeometryCatalog)
    (candidate : GeometryCandidate catalog) (p : CandidateProjection) (graph : BuildOrderGraph)
    (session : BuildSession),
    (clearRequest candidate false).build ⟨p, .initial⟩ .empty = .ok (some (graph, session)) ∧
      ∀ rotation, ∃ es, GraphPath graph graph.root es ∧
        es.map edgeLabel = [(lockO rotation).label] := by
  obtain ⟨catalog, candidate, rowId, row, p, profile, hok, hids, hrow, hpiece, hcells, htiling, hp,
    hprofile⟩ := exists_single_O
  have hb : BuildProblem 2 2 0 0xF (clearRequest candidate false) p :=
    buildProblem_of_compile hok htiling hp (Or.inl rfl)
  obtain ⟨-, graph, session, subsets, hbuild, hexact⟩ := @buildOrderGraph_exact 2 2 0 0xF
    (clearRequest candidate false) p profile _ _ _ _ hok htiling hp (Or.inl rfl) .initial hprofile
    .empty
  refine ⟨catalog, candidate, p, graph, session, hbuild, fun rotation => ?_⟩
  rw [hexact.root.1]
  exact hexact.complete (fun hr => absurd hr.2 (by simp [clearRequest])) 0 0 [lockO rotation]
    hexact.root.2 (completes_lockO hb hids hrow hpiece hcells profile rotation)

/-- Every legal order, realizations included, is spelled by a path from the root. -/
def EveryOrderIsPath (request : BuildRequest) (profile : KickTableProfile)
    (p : CandidateProjection) (graph : BuildOrderGraph) : Prop :=
  ∀ locks, Completes request profile p 0 (p.computeState 0).1 (p.computeState 0).2 locks →
    ∃ es, GraphPath graph graph.root es ∧ es.map edgeLabel = locks.map Lock.label

/-- With one edge per operation it is not so: the O has four legal orders and at most one path. -/
theorem everyOrderIsPath_fails : ∃ (catalog : GeometryCatalog)
    (candidate : GeometryCandidate catalog) (p : CandidateProjection)
    (profile : KickTableProfile) (graph : BuildOrderGraph) (session : BuildSession),
    compileWithClearRowDomain 2 2 0 0xF true ⟨true, true, .ok (), true⟩ = .ok catalog ∧
      IsTiling 2 2 0 0xF candidate ∧
      compile catalog candidate .empty = .ok p ∧
      builtinKickProfile ReachabilityWorkspace.initial.kickProfileId = some profile ∧
      (clearRequest candidate true).build ⟨p, .initial⟩ .empty = .ok (some (graph, session)) ∧
      ¬EveryOrderIsPath (clearRequest candidate true) profile p graph := by
  obtain ⟨catalog, candidate, rowId, row, p, profile, hok, hids, hrow, hpiece, hcells, htiling, hp,
    hprofile⟩ := exists_single_O
  have hb : BuildProblem 2 2 0 0xF (clearRequest candidate true) p :=
    buildProblem_of_compile hok htiling hp (Or.inl rfl)
  have hs : SessionOk profile p ⟨p, .initial⟩ :=
    @compile_sessionOk (clearRequest candidate true) p profile _ hp _ .initial hprofile
  obtain ⟨graph, session, subsets, hbuild, hexact⟩ := build_ordersExact hb hs .empty
  refine ⟨catalog, candidate, p, profile, graph, session, hok, htiling, hp, hprofile, hbuild, ?_⟩
  intro hall
  -- a path labelled by one lock is one edge of the root
  have hedge : ∀ rotation, ∃ node e, graph.nodes[0]? = some node ∧ e ∈ graph.edgesOf node ∧
      edgeLabel e = (lockO rotation).label := by
    intro rotation
    obtain ⟨es, hpath, hlabel⟩ := hall _ (completes_lockO hb hids hrow hpiece hcells profile rotation)
    rw [hexact.root.1] at hpath
    cases hpath with
    | accept => simp at hlabel
    | edge hnode he _ => exact ⟨_, _, hnode, he, (List.cons.inj hlabel).1⟩
  obtain ⟨node, e, hnode, he, hlabel⟩ := hedge .zero
  obtain ⟨node', e', hnode', he', hlabel'⟩ := hedge .right
  cases hnode.symm.trans hnode'
  have hindex : e.operationIndex = e'.operationIndex :=
    (congrArg Prod.fst hlabel).trans (congrArg Prod.fst hlabel').symm
  have hsame := hexact.single ⟨by simp [clearRequest], rfl⟩ 0 node hnode e he e' he' hindex
  rw [hsame, hlabel'] at hlabel
  exact absurd (congrArg (·.2.1) hlabel) (by simp [lockO, Lock.label])

end Clearra.Proof.Executor
