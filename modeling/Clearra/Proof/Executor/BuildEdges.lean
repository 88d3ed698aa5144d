import Clearra.Proof.Executor.Confluence
import Clearra.Proof.Executor.LockCache

/-!
# The edges of one node

Collecting the edges of a subset threads two tables through nested loops: the projection's memo and
the reachability workspace. Neither can be seen in the outcome — the memo holds computed states
(`SessionOk.memo`), the workspace answers what a search would — so what is collected is a function
of the subset: the allowed locks of its unplaced operations, or one of them per operation
(`NodeEdges`). The consistency test inside `geometric_build_edge` never rejects; that is the
confluence of the locks.
-/

namespace Clearra.Proof.Executor

open Clearra.Executor BuildRequest List
open Clearra.Rules

/-! ## What is fixed while a graph is built -/

/-- A compiled catalog, a tiling candidate and its projection. -/
structure BuildProblem (width height : Nat) (initialBoard requiredCells : Board)
    (request : BuildRequest) (p : CandidateProjection) : Prop where
  catalog : ∃ buildTarget, IsCatalog width height initialBoard requiredCells
    (clearRowDomain width height initialBoard requiredCells buildTarget) request.catalog
  tiling : IsTiling width height initialBoard requiredCells request.candidate
  projects : Projects request.catalog request.candidate p
  feasibility : request.feasibility = none ∨
    request.feasibility = some (.analyze request.candidate.rowIds.length)
  nonempty : 0 < request.candidate.rowIds.length

/-- The tables hold nothing but what would be computed. -/
structure SessionOk (profile : KickTableProfile) (p : CandidateProjection) (s : BuildSession) :
    Prop where
  same : s.projection = { p with states := s.projection.states }
  memo : ∀ (subset : Subset) (v : Board × Rows),
    s.projection.states.get? subset.toNat = some v → v = p.computeState subset
  sound : WorkspaceSound s.reachability
  profile : builtinKickProfile s.reachability.kickProfileId = some profile

/-- Which locks may become edges. -/
def Allowed (request : BuildRequest) (profile : KickTableProfile) (board : Board)
    (piece : PieceKind) (inst : InstantiatedRealization) : Prop :=
  request.reachabilityMode = .geometryOnly ∨
    placementIsGrounded request.catalog.width board inst.lockMask = true ∧
      WorkspaceReaches request.catalog.width request.catalog.height profile board piece inst

/-- Whether an operation contributes one edge only. -/
def Representative (request : BuildRequest) : Prop :=
  request.reachabilityMode ≠ .geometryOnly ∧ request.pieceLanguageProjectionOnly = true

/-- The edge of a lock. -/
def lockEdge (width height : Nat) (board : Board) (child : Subset) (operation : Nat)
    (piece : PieceKind) (inst : InstantiatedRealization) : BuildEdge :=
  ⟨child.toNat, operation, piece, inst.rotation, inst.x, inst.lockY,
    (placeAndClear width height (board ||| inst.lockMask)).2.2⟩

section

variable {width height : Nat} {initialBoard requiredCells : Board} {request : BuildRequest}
  {p : CandidateProjection} {profile : KickTableProfile} {s : BuildSession}

/-- Reading a state, remembered or not. -/
theorem SessionOk.state (h : SessionOk profile p s) (subset : Subset) :
    (s.projection.state subset).1 = p.computeState subset ∧
      SessionOk profile p { s with projection := (s.projection.state subset).2 } := by
  have hcompute : s.projection.computeState subset = p.computeState subset := by
    rw [h.same]
    rfl
  rw [CandidateProjection.state]
  cases hget : s.projection.states.get? subset.toNat with
  | some known => exact ⟨h.memo subset known hget, h⟩
  | none =>
    dsimp only
    refine ⟨hcompute, ?_, ?_, h.sound, h.profile⟩
    · rw [h.same]
    · intro subset' v hv
      rcases Lib.Stamped.get?_set_cases hv with ⟨heq, rfl⟩ | hv
      · rw [hcompute, BitVec.eq_of_toNat_eq heq]
      · exact h.memo subset' v hv

/-- An operation not yet placed, with its row. -/
structure Choice (request : BuildRequest) (p : CandidateProjection) (subset : Subset)
    (rowId : Nat) (c : BuildChoice) : Prop where
  unplaced : subset.getLsbD c.operationIndex = false
  child : c.child = subset ||| rowBit c.operationIndex
  id : request.candidate.rowIds[c.operationIndex]? = some rowId
  row : ∃ row, request.catalog.skeletons[rowId]? = some row ∧ row.piece = c.piece
  board : c.board = (p.computeState subset).1
  deleted : c.deletedRows = (p.computeState subset).2

/-- The edge of a lock at a choice. -/
def BuildChoice.edge (request : BuildRequest) (c : BuildChoice) (inst : InstantiatedRealization) :
    BuildEdge :=
  lockEdge request.catalog.width request.catalog.height c.board c.child c.operationIndex c.piece
    inst

variable {subset : Subset} {rowId : Nat} {c : BuildChoice}

section

variable (hb : BuildProblem width height initialBoard requiredCells request p)
include hb

variable (hc : Choice request p subset rowId c)

include hc in
/-- The consistency test passes: an instantiated realization always gives its edge. -/
theorem geometricEdge_spec (hs : SessionOk profile p s) {inst : InstantiatedRealization}
    (hinst : inst ∈ request.catalog.instantiations rowId c.deletedRows) :
    inst.lockY < height ∧ ∃ s', request.geometricEdge s c inst =
      (some (BuildChoice.edge request c inst), s') ∧ SessionOk profile p s' ∧
        s'.reachability = s.reachability := by
  obtain ⟨buildTarget, hcat⟩ := hb.catalog
  rw [hc.deleted] at hinst
  obtain ⟨hfree, hy, cleared, hclear, hmerge⟩ :=
    lock_step hcat hb.tiling hb.projects hc.unplaced hc.id hinst
  obtain ⟨hstate, hs'⟩ := hs.state c.child
  refine ⟨hy, _, ?_, hs', rfl⟩
  rw [geometricEdge, geometricBuildEdge, hcat.width_eq, hcat.height_eq, hc.board,
    hc.deleted, if_neg (not_not.mpr hfree)]
  simp only [hclear, hmerge]
  rw [← hc.child, ← hstate]
  simp only [ne_eq, not_true_eq_false, or_self, if_false]
  rw [BuildChoice.edge, lockEdge, hcat.width_eq, hcat.height_eq, hc.board, hclear]

include hc in
theorem groundedEdge_spec (hs : SessionOk profile p s) {inst : InstantiatedRealization}
    (hinst : inst ∈ request.catalog.instantiations rowId c.deletedRows) :
    inst.lockY < height ∧ ∃ s', request.groundedEdge s c inst =
      (if placementIsGrounded request.catalog.width c.board inst.lockMask then
        some (BuildChoice.edge request c inst) else none, s') ∧ SessionOk profile p s' := by
  obtain ⟨hy, s', hedge, hs', -⟩ := geometricEdge_spec hb hc hs hinst
  rw [groundedEdge]
  split
  · exact ⟨hy, s', hedge, hs'⟩
  · exact ⟨hy, s, rfl, hs⟩

/-! ## One operation -/

/-- What an operation contributes: locks that are allowed, all of them or — where only one is
    wanted — some one, if there is any. -/
structure Offers (allowed : InstantiatedRealization → Prop)
    (edge : InstantiatedRealization → BuildEdge) (representative : Prop)
    (insts : List InstantiatedRealization) (edges : List BuildEdge) : Prop where
  sound : ∀ e ∈ edges, ∃ inst ∈ insts, allowed inst ∧ e = edge inst
  some_of_allowed : (∃ inst ∈ insts, allowed inst) → edges ≠ []
  complete : ¬representative → ∀ inst ∈ insts, allowed inst → edge inst ∈ edges
  single : representative → edges.length ≤ 1

include hc in
theorem geometryEdges_spec :
    ∀ (insts : List InstantiatedRealization) (s : BuildSession),
      (∀ inst ∈ insts, inst ∈ request.catalog.instantiations rowId c.deletedRows) →
      SessionOk profile p s → ∃ s', request.geometryEdges c insts s =
        (insts.map (BuildChoice.edge request c), s') ∧ SessionOk profile p s' := by
  intro insts
  induction insts with
  | nil => intro s _ hs; exact ⟨s, rfl, hs⟩
  | cons inst rest ih =>
    intro s hmem hs
    obtain ⟨-, s1, hedge, hs1, -⟩ := geometricEdge_spec hb hc hs (hmem inst mem_cons_self)
    obtain ⟨s2, hrest, hs2⟩ := ih s1 (fun i hi => hmem i (mem_cons_of_mem inst hi)) hs1
    refine ⟨s2, ?_, hs2⟩
    rw [geometryEdges, hedge]
    dsimp only
    rw [hrest]
    rfl

include hc in
theorem reachableEdges_spec :
    ∀ (insts : List InstantiatedRealization) (s : BuildSession),
      (∀ inst ∈ insts, inst ∈ request.catalog.instantiations rowId c.deletedRows) →
      SessionOk profile p s → ∃ edges s', request.reachableEdges c insts s = some (edges, s') ∧
        SessionOk profile p s' ∧ ∀ e, e ∈ edges ↔ ∃ inst ∈ insts,
          (placementIsGrounded request.catalog.width c.board inst.lockMask = true ∧
            WorkspaceReaches request.catalog.width request.catalog.height profile c.board c.piece
              inst) ∧ e = BuildChoice.edge request c inst := by
  obtain ⟨buildTarget, hcat⟩ := hb.catalog
  intro insts
  induction insts with
  | nil => intro s _ hs; exact ⟨[], s, rfl, hs, fun e => by simp⟩
  | cons inst rest ih =>
    intro s hmem hs
    have hrest := fun i hi => hmem i (mem_cons_of_mem inst hi)
    obtain ⟨hy, s1, hedge, hs1⟩ := groundedEdge_spec hb hc hs (hmem inst mem_cons_self)
    rw [reachableEdges, hedge]
    cases hg : placementIsGrounded request.catalog.width c.board inst.lockMask with
    | false =>
      obtain ⟨edges, s2, hrun, hs2, hedges⟩ := ih s1 hrest hs1
      refine ⟨edges, s2, hrun, hs2, fun e => ?_⟩
      rw [hedges, exists_mem_cons_iff]
      simp [hg]
    | true =>
      obtain ⟨answer, ws, hquery, hws, hkeep, hanswer⟩ := lockReachableInstantiated_spec hs1.sound
        request.storage hcat.height_pos hcat.cells_le hs1.profile c.board c.piece hy
      obtain ⟨edges, s2, hrun, hs2, hedges⟩ := ih { s1 with reachability := ws } hrest
        ⟨hs1.same, hs1.memo, hws, by rw [hkeep]; exact hs1.profile⟩
      refine ⟨if answer then BuildChoice.edge request c inst :: edges else edges, s2, ?_, hs2,
        fun e => ?_⟩
      · dsimp only
        rw [if_pos rfl, hcat.width_eq, hcat.height_eq]
        dsimp only
        rw [hquery]
        exact congrArg (Option.bind · _) hrun
      · rw [exists_mem_cons_iff, ← hedges, hg]
        rw [← hcat.width_eq, ← hcat.height_eq] at hanswer
        cases answer with
        | true =>
          rw [if_pos rfl, mem_cons]
          simp [hanswer.mp rfl]
        | false =>
          rw [if_neg (by simp)]
          have hno : ¬WorkspaceReaches request.catalog.width request.catalog.height profile c.board
              c.piece inst := fun hreach => absurd (hanswer.mpr hreach) (by simp)
          simp [hno]

include hc in
/-- The first pass finds a hard drop, or returns every grounded edge, none of them one. -/
theorem harddropScan_spec :
    ∀ (insts : List InstantiatedRealization) (s : BuildSession),
      (∀ inst ∈ insts, inst ∈ request.catalog.instantiations rowId c.deletedRows) →
      SessionOk profile p s → ∃ edges dropped s',
        request.harddropScan c insts s = ((edges, dropped), s') ∧ SessionOk profile p s' ∧
        (∀ e, dropped = some e → ∃ inst ∈ insts,
          placementIsGrounded request.catalog.width c.board inst.lockMask = true ∧
          ReachabilityWorkspace.lockHarddropReachable request.catalog.width c.board inst = true ∧
          e = BuildChoice.edge request c inst) ∧ (dropped = none →
          (∀ inst ∈ insts, placementIsGrounded request.catalog.width c.board inst.lockMask = true →
            ReachabilityWorkspace.lockHarddropReachable request.catalog.width c.board inst = false) ∧
          ∀ e, e ∈ edges ↔ ∃ inst ∈ insts,
            placementIsGrounded request.catalog.width c.board inst.lockMask = true ∧
              e = BuildChoice.edge request c inst) := by
  intro insts
  induction insts with
  | nil =>
    intro s _ hs
    exact ⟨[], none, s, rfl, hs, by simp, fun _ => ⟨by simp, by simp⟩⟩
  | cons inst rest ih =>
    intro s hmem hs
    have hrest := fun i hi => hmem i (mem_cons_of_mem inst hi)
    obtain ⟨-, s1, hedge, hs1⟩ := groundedEdge_spec hb hc hs (hmem inst mem_cons_self)
    rw [harddropScan, hedge]
    obtain ⟨edges, dropped, s2, hrun, hs2, hsome, hnone⟩ := ih s1 hrest hs1
    cases hg : placementIsGrounded request.catalog.width c.board inst.lockMask with
    | false =>
      refine ⟨edges, dropped, s2, hrun, hs2, fun e he => ?_, fun hd => ⟨?_, fun e => ?_⟩⟩
      · obtain ⟨i, hi, hrest⟩ := hsome e he
        exact ⟨i, mem_cons_of_mem inst hi, hrest⟩
      · intro i hi hgi
        rcases mem_cons.mp hi with rfl | hi
        · rw [hg] at hgi
          simp at hgi
        · exact (hnone hd).1 i hi hgi
      · rw [(hnone hd).2, exists_mem_cons_iff]
        simp [hg]
    | true =>
      cases hdrop : ReachabilityWorkspace.lockHarddropReachable request.catalog.width c.board inst with
      | true =>
        refine ⟨[BuildChoice.edge request c inst], some (BuildChoice.edge request c inst), s1, rfl,
          hs1, fun e he => ?_, by simp⟩
        exact ⟨inst, mem_cons_self, hg, hdrop, (Option.some.inj he).symm⟩
      | false =>
        refine ⟨BuildChoice.edge request c inst :: edges, dropped, s2, ?_, hs2, fun e he => ?_,
          fun hd => ⟨?_, fun e => ?_⟩⟩
        · simp only [if_true, Bool.false_eq_true, if_false, hrun]
        · obtain ⟨i, hi, hrest⟩ := hsome e he
          exact ⟨i, mem_cons_of_mem inst hi, hrest⟩
        · intro i hi hgi
          rcases mem_cons.mp hi with rfl | hi
          · exact hdrop
          · exact (hnone hd).1 i hi hgi
        · rw [mem_cons, (hnone hd).2, exists_mem_cons_iff]
          simp [hg]

/-- The second pass finds a reachable edge if there is one. -/
theorem firstReachable_spec :
    ∀ (edges : List BuildEdge) (ws : ReachabilityWorkspace),
      (∀ e ∈ edges, e.y < (height : Int)) → WorkspaceSound ws →
      builtinKickProfile ws.kickProfileId = some profile →
      ws.templateDimensions = some (request.catalog.width, request.catalog.height) →
      ∃ selected ws', request.firstReachable c edges ws = some (selected, ws') ∧
        WorkspaceSound ws' ∧ ws'.kickProfileId = ws.kickProfileId ∧
        (∀ e, selected = some e → e ∈ edges ∧ LockTruth request.catalog.width
          request.catalog.height profile c.board c.piece e.rotation e.x e.y) ∧
        (selected = none → ∀ e ∈ edges, ¬LockTruth request.catalog.width request.catalog.height
          profile c.board c.piece e.rotation e.x e.y) := by
  obtain ⟨buildTarget, hcat⟩ := hb.catalog
  intro edges
  induction edges with
  | nil =>
    intro ws _ hws _ _
    exact ⟨none, ws, rfl, hws, rfl, by simp, by simp⟩
  | cons e rest ih =>
    intro ws hy hws hprofile hdims
    obtain ⟨answer, ws1, hquery, hws1, hkeep, hdims1, hanswer⟩ := lockReachableCached_spec hws
      request.storage (hcat.height_eq ▸ hcat.height_pos)
      (by rw [hcat.width_eq, hcat.height_eq]; exact hcat.cells_le) hprofile hdims c.board c.piece
      e.rotation (x := e.x) (hcat.height_eq ▸ hy e mem_cons_self)
    rw [firstReachable, hquery]
    cases answer with
    | true =>
      refine ⟨some e, ws1, rfl, hws1, hkeep, fun e' he' => ?_, by simp⟩
      rw [← Option.some.inj he']
      exact ⟨mem_cons_self, hanswer.mp rfl⟩
    | false =>
      obtain ⟨selected, ws2, hrun, hws2, hkeep2, hsome, hnone⟩ := ih ws1
        (fun e' he' => hy e' (mem_cons_of_mem e he')) hws1 (by rw [hkeep]; exact hprofile) hdims1
      refine ⟨selected, ws2, hrun, hws2, hkeep2.trans hkeep, fun e' he' => ?_, fun hs e' he' => ?_⟩
      · exact ⟨mem_cons_of_mem e (hsome e' he').1, (hsome e' he').2⟩
      · rcases mem_cons.mp he' with rfl | he'
        · exact fun ht => absurd (hanswer.mpr ht) (by simp)
        · exact hnone hs e' he'

include hc in
theorem representativeEdges_spec (hs : SessionOk profile p s) :
    ∃ edges s', request.representativeEdges c
        (request.catalog.instantiations rowId c.deletedRows) s = some (edges, s') ∧
      SessionOk profile p s' ∧
      Offers (fun inst => placementIsGrounded request.catalog.width c.board inst.lockMask = true ∧
          WorkspaceReaches request.catalog.width request.catalog.height profile c.board c.piece
            inst)
        (BuildChoice.edge request c) True (request.catalog.instantiations rowId c.deletedRows)
        edges := by
  obtain ⟨found, dropped, s1, hscan, hs1, hsome, hnone⟩ :=
    harddropScan_spec hb hc (request.catalog.instantiations rowId c.deletedRows) s
      (fun _ h => h) hs
  rw [representativeEdges, hscan]
  cases dropped with
  | some e =>
    obtain ⟨inst, hinst, hg, hdrop, rfl⟩ := hsome e rfl
    refine ⟨[BuildChoice.edge request c inst], s1, ?_, hs1, ?_⟩
    · cases found <;> rfl
    · refine ⟨fun e he => ?_, fun _ => by simp, fun h => absurd trivial h, fun _ => by simp⟩
      exact ⟨inst, hinst, ⟨hg, Or.inl hdrop⟩, mem_singleton.mp he⟩
  | none =>
    obtain ⟨hnodrop, hfound⟩ := hnone rfl
    cases found with
    | nil =>
      refine ⟨[], s1, rfl, hs1, by simp, ?_, fun h => absurd trivial h, fun _ => by simp⟩
      rintro ⟨inst, hinst, hg, -⟩
      exact absurd ((hfound _).mpr ⟨inst, hinst, hg, rfl⟩) (by simp)
    | cons e more =>
      have hy : ∀ e' ∈ e :: more, e'.y < (height : Int) := by
        intro e' he'
        obtain ⟨inst, hinst, -, rfl⟩ := (hfound e').mp he'
        exact (geometricEdge_spec hb hc hs hinst).1
      obtain ⟨hprep, hdims, hkeep⟩ :=
        hs1.sound.prepareTemplate request.catalog.width request.catalog.height
      obtain ⟨selected, ws, hrun, hws, hkeep', hyes, hno⟩ := firstReachable_spec hb (c := c)
        (e :: more) _ hy hprep (by rw [hkeep]; exact hs1.profile) hdims
      refine ⟨selected.toList, { s1 with reachability := ws }, ?_, ?_, ?_⟩
      · exact congrArg (Option.bind · _) hrun
      · exact ⟨hs1.same, hs1.memo, hws, by rw [hkeep', hkeep]; exact hs1.profile⟩
      · refine ⟨fun e' he' => ?_, ?_, fun h => absurd trivial h, fun _ => ?_⟩
        · rw [Option.mem_toList] at he'
          obtain ⟨hmem, htruth⟩ := hyes e' he'
          obtain ⟨inst, hinst, hg, rfl⟩ := (hfound e').mp hmem
          exact ⟨inst, hinst, ⟨hg, Or.inr htruth⟩, rfl⟩
        · rintro ⟨inst, hinst, hg, hreach⟩ hempty
          have hnone' : selected = none := by
            cases selected with
            | none => rfl
            | some e' => simp at hempty
          rcases hreach with hdrop | htruth
          · rw [hnodrop inst hinst hg] at hdrop
            simp at hdrop
          · exact hno hnone' _ ((hfound _).mpr ⟨inst, hinst, hg, rfl⟩) htruth
        · cases selected <;> simp

include hc in
/-- Whichever the mode, an operation contributes its allowed locks, all or one. -/
theorem operationEdges_spec (hs : SessionOk profile p s) :
    ∃ edges s', request.operationEdges c rowId s = some (edges, s') ∧ SessionOk profile p s' ∧
      Offers (Allowed request profile c.board c.piece) (BuildChoice.edge request c)
        (Representative request) (request.catalog.instantiations rowId c.deletedRows) edges := by
  rw [operationEdges]
  by_cases hmode : request.reachabilityMode = .geometryOnly
  · obtain ⟨s', hrun, hs'⟩ := geometryEdges_spec hb hc
      (request.catalog.instantiations rowId c.deletedRows) s (fun _ h => h) hs
    refine ⟨_, s', by rw [if_pos hmode, hrun], hs', ?_, ?_, ?_, fun h => absurd hmode h.1⟩
    · intro e he
      obtain ⟨inst, hinst, rfl⟩ := mem_map.mp he
      exact ⟨inst, hinst, Or.inl hmode, rfl⟩
    · rintro ⟨inst, hinst, -⟩ hempty
      rw [map_eq_nil_iff] at hempty
      rw [hempty] at hinst
      exact absurd hinst not_mem_nil
    · intro _ inst hinst _
      exact mem_map.mpr ⟨inst, hinst, rfl⟩
  · have hallowed : Allowed request profile c.board c.piece = fun inst =>
        placementIsGrounded request.catalog.width c.board inst.lockMask = true ∧
          WorkspaceReaches request.catalog.width request.catalog.height profile c.board c.piece
            inst := funext fun inst => propext (or_iff_right hmode)
    simp only [if_neg hmode]
    rw [hallowed]
    cases hproj : request.pieceLanguageProjectionOnly with
    | true =>
      obtain ⟨edges, s', hrun, hs', hoffers⟩ := representativeEdges_spec hb hc hs
      have hrep : Representative request = True := eq_true ⟨hmode, hproj⟩
      exact ⟨edges, s', by rw [if_pos rfl]; exact hrun, hs', hrep ▸ hoffers⟩
    | false =>
      obtain ⟨edges, s', hrun, hs', hedges⟩ := reachableEdges_spec hb hc
        (request.catalog.instantiations rowId c.deletedRows) s (fun _ h => h) hs
      have hoffered : ∀ inst ∈ request.catalog.instantiations rowId c.deletedRows, _ →
          BuildChoice.edge request c inst ∈ edges :=
        fun inst hinst hok => (hedges _).mpr ⟨inst, hinst, hok, rfl⟩
      refine ⟨edges, s', by rw [if_neg (by simp)]; exact hrun, hs', fun e => (hedges e).mp, ?_,
        fun _ => hoffered, fun h => absurd h.2 (by rw [hproj]; simp)⟩
      rintro ⟨inst, hinst, hok⟩
      exact ne_nil_of_mem (hoffered inst hinst hok)

/-! ## All operations of a subset -/

theorem mem_permittedOperations {i : Nat} :
    i ∈ request.permittedOperations p.operationCount subset ↔
      i < request.candidate.rowIds.length ∧ subset.getLsbD i = false := by
  have hcount := hb.projects.count_le
  have hpos := hb.nonempty
  have hmask : request.permittedMask p.operationCount subset =
      BitVec.ofNat 16 (2 ^ request.candidate.rowIds.length - 1) &&& ~~~subset := by
    rw [permittedMask]
    rcases hb.feasibility with hf | hf
    · rw [hf, hb.projects.operationCount]
    · rw [hf]
      dsimp only
      rw [RealizationFeasibility.permittedOperationMask, RealizationFeasibility.analyze,
        maxBoard64Pieces, if_neg (by dsimp only; omega)]
  rw [permittedOperations, hmask, mem_filter, mem_range, BitVec.getLsbD_and,
    BitVec.getLsbD_ofNat, Nat.testBit_two_pow_sub_one, BitVec.getLsbD_not]
  simp only [Bool.and_eq_true, decide_eq_true_eq, Bool.not_eq_true']
  constructor
  · rintro ⟨-, ⟨-, hlt⟩, -, hsub⟩
    exact ⟨hlt, hsub⟩
  · rintro ⟨hlt, hsub⟩
    exact ⟨by omega, ⟨by omega, hlt⟩, by omega, hsub⟩

end

/-- A lock that is allowed next at a subset, and its edge. -/
structure Next (request : BuildRequest) (profile : KickTableProfile) (p : CandidateProjection)
    (subset : Subset) (lock : Lock) (e : BuildEdge) : Prop where
  unplaced : subset.getLsbD lock.operation = false
  lock : ∃ rowId row, request.candidate.rowIds[lock.operation]? = some rowId ∧
    request.catalog.skeletons[rowId]? = some row ∧
    lock.realization ∈ request.catalog.instantiations rowId (p.computeState subset).2 ∧
    Allowed request profile (p.computeState subset).1 row.piece lock.realization ∧
    e = lockEdge request.catalog.width request.catalog.height (p.computeState subset).1
      (subset ||| rowBit lock.operation) lock.operation row.piece lock.realization

/-- The edges of a subset. -/
structure NodeEdges (request : BuildRequest) (profile : KickTableProfile)
    (p : CandidateProjection) (subset : Subset) (operations : List Nat) (edges : List BuildEdge) :
    Prop where
  sound : ∀ e ∈ edges, ∃ lock, Next request profile p subset lock e ∧ lock.operation ∈ operations
  some_of_allowed : ∀ lock e, lock.operation ∈ operations → Next request profile p subset lock e →
    ∃ e' ∈ edges, e'.operationIndex = lock.operation
  complete : ¬Representative request → ∀ lock e, lock.operation ∈ operations →
    Next request profile p subset lock e → e ∈ edges
  single : Representative request → ∀ e ∈ edges, ∀ e' ∈ edges,
    e.operationIndex = e'.operationIndex → e = e'

theorem Next.operationIndex {lock : Lock} {e : BuildEdge} (h : Next request profile p subset lock e) :
    e.operationIndex = lock.operation := by
  obtain ⟨_, _, _, _, _, _, rfl⟩ := h.lock
  rfl

theorem collectEdges_spec (hb : BuildProblem width height initialBoard requiredCells request p)
    (subset : Subset) : ∀ (operations : List Nat) (s : BuildSession), operations.Nodup →
      (∀ i ∈ operations, i < request.candidate.rowIds.length ∧ subset.getLsbD i = false) →
      SessionOk profile p s → ∃ edges s', request.collectEdges subset (p.computeState subset).1
          (p.computeState subset).2 operations s = some (edges, s') ∧ SessionOk profile p s' ∧
        NodeEdges request profile p subset operations edges := by
  intro operations
  induction operations with
  | nil =>
    intro s _ _ hs
    exact ⟨[], s, rfl, hs, by simp, by simp, by simp, by simp⟩
  | cons i rest ih =>
    intro s hnodup hops hs
    obtain ⟨hi, hunplaced⟩ := hops i mem_cons_self
    have hid := getElem?_eq_getElem hi
    obtain ⟨row, hskeleton⟩ :
        ∃ row, request.catalog.skeletons[request.candidate.rowIds[i]]? = some row :=
      ⟨_, getElem?_eq_getElem (request.candidate.valid _ (getElem_mem hi))⟩
    have hrow : request.candidate.row? i = some row := by
      rw [GeometryCandidate.row?, hid]
      exact hskeleton
    let c : BuildChoice := ⟨i, subset ||| rowBit i, row.piece, (p.computeState subset).1,
      (p.computeState subset).2⟩
    have hc : Choice request p subset request.candidate.rowIds[i] c :=
      ⟨hunplaced, rfl, hid, ⟨row, hskeleton, rfl⟩, rfl, rfl⟩
    obtain ⟨edges, s1, hrun, hs1, hoffers⟩ := operationEdges_spec hb hc hs
    obtain ⟨more, s2, hrest, hs2, hmore⟩ := ih s1 (nodup_cons.mp hnodup).2
      (fun j hj => hops j (mem_cons_of_mem i hj)) hs1
    -- the locks of operation `i` are the ones it offers
    have hnext : ∀ lock e, lock.operation = i → (Next request profile p subset lock e ↔
        lock.realization ∈ request.catalog.instantiations request.candidate.rowIds[i]
          c.deletedRows ∧ Allowed request profile c.board c.piece lock.realization ∧
          e = BuildChoice.edge request c lock.realization) := by
      rintro ⟨operation, inst⟩ e hoperation
      dsimp only at hoperation
      subst hoperation
      constructor
      · rintro ⟨-, rowId, row', hid', hskeleton', hinst, hok, he⟩
        have hsame := Option.some.inj (hid.symm.trans hid')
        subst hsame
        have hrows := Option.some.inj (hskeleton.symm.trans hskeleton')
        subst hrows
        exact ⟨hinst, hok, he⟩
      · rintro ⟨hinst, hok, he⟩
        exact ⟨hunplaced, _, row, hid, hskeleton, hinst, hok, he⟩
    refine ⟨edges ++ more, s2, ?_, hs2, ?_, ?_, ?_, ?_⟩
    · rw [collectEdges, hid, hrow]
      dsimp only
      rw [show request.operationEdges ⟨i, subset ||| rowBit i, row.piece, (p.computeState subset).1,
        (p.computeState subset).2⟩ request.candidate.rowIds[i] s = some (edges, s1) from hrun]
      exact congrArg (Option.bind · _) hrest
    · intro e he
      rcases mem_append.mp he with he | he
      · obtain ⟨inst, hinst, hok, heq⟩ := hoffers.sound e he
        exact ⟨⟨i, inst⟩, (hnext ⟨i, inst⟩ e rfl).mpr ⟨hinst, hok, heq⟩, mem_cons_self⟩
      · obtain ⟨lock, hlock, hmem⟩ := hmore.sound e he
        exact ⟨lock, hlock, mem_cons_of_mem i hmem⟩
    · intro lock e hop hlock
      rcases mem_cons.mp hop with hop | hop
      · obtain ⟨hinst, hok, -⟩ := (hnext lock e hop).mp hlock
        obtain ⟨e', he'⟩ := exists_mem_of_ne_nil _
          (hoffers.some_of_allowed ⟨lock.realization, hinst, hok⟩)
        obtain ⟨inst, -, -, rfl⟩ := hoffers.sound e' he'
        exact ⟨_, mem_append_left _ he', hop.symm⟩
      · obtain ⟨e', he', hidx⟩ := hmore.some_of_allowed lock e hop hlock
        exact ⟨e', mem_append_right _ he', hidx⟩
    · intro hrep lock e hop hlock
      rcases mem_cons.mp hop with hop | hop
      · obtain ⟨hinst, hok, rfl⟩ := (hnext lock e hop).mp hlock
        exact mem_append_left _ (hoffers.complete hrep _ hinst hok)
      · exact mem_append_right _ (hmore.complete hrep lock e hop hlock)
    · intro hrep e he e' he' hidx
      have hfirst : ∀ e ∈ edges, e.operationIndex = i := by
        intro e he
        obtain ⟨inst, -, -, rfl⟩ := hoffers.sound e he
        rfl
      have hlater : ∀ e ∈ more, e.operationIndex ≠ i := by
        intro e he heq
        obtain ⟨lock, hlock, hmem⟩ := hmore.sound e he
        rw [← heq, hlock.operationIndex] at hnodup
        exact (nodup_cons.mp hnodup).1 hmem
      rcases mem_append.mp he with he | he
      · rcases mem_append.mp he' with he' | he'
        · have hle := hoffers.single hrep
          cases edges with
          | nil => exact absurd he not_mem_nil
          | cons a rest =>
            obtain rfl : rest = [] := by simpa using hle
            rw [mem_singleton.mp he, mem_singleton.mp he']
        · exact absurd (hidx.symm.trans (hfirst e he)) (hlater e' he')
      · rcases mem_append.mp he' with he' | he'
        · exact absurd (hidx.trans (hfirst e' he')) (hlater e he)
        · exact hmore.single hrep e he e' he' hidx

end

end Clearra.Proof.Executor
