import Clearra.Proof.Executor.BuildOrder

/-!
# Paths are build orders

What the graph is for. A path from a node to an accepting one spells an order in which the remaining
operations can be locked, and the live nodes are those that have one. Which orders are spelled is a
matter of the mode: all of them, unless only one representative of each operation is kept — then
every order of *operations* is still spelled, but not every choice of realizations, and liveness is
the same either way.
-/

namespace Clearra.Proof.Executor

open Clearra.Executor Lib List
open Clearra.Rules

/-! ## The liveness sweep -/

/-- What the sweep may change: the flag. -/
def SameButLive (node node' : BuildNode) : Prop := node' = { node with live := node'.live }

/-- The sweep over the nodes from `k` on. -/
def sweepFrom (edges : List BuildEdge) (nodes : List BuildNode) (k m : Nat) : List BuildNode :=
  (List.range' k m).foldr (fun index swept => liveStep edges swept index) nodes

theorem propagateLive_eq (edges : List BuildEdge) (nodes : List BuildNode) :
    propagateLive edges nodes = sweepFrom edges nodes 0 nodes.length := by
  rw [propagateLive, foldl_reverse, sweepFrom, range_eq_range']

/-- Going backwards, the nodes from `k` on are decided: one is live if it accepts or leads to a live
    one. Induction on how many are swept; edges lead forward, so a step does not disturb what the
    earlier ones looked at. -/
theorem sweepFrom_spec {edges : List BuildEdge} {nodes : List BuildNode}
    (hforward : ∀ (i : Nat) (node : BuildNode), nodes[i]? = some node →
      ∀ e ∈ slice edges node.edgeStart (node.edgeStart + node.edgeCount),
        i < e.target ∧ e.target < nodes.length) :
    ∀ m k, k + m = nodes.length → (sweepFrom edges nodes k m).length = nodes.length ∧
      ∀ (i : Nat) (node : BuildNode), nodes[i]? = some node →
        (i < k → (sweepFrom edges nodes k m)[i]? = some node) ∧
        (k ≤ i → ∃ node', (sweepFrom edges nodes k m)[i]? = some node' ∧ SameButLive node node' ∧
          (node'.live = true ↔ node.live = true ∨
            ∃ e ∈ slice edges node.edgeStart (node.edgeStart + node.edgeCount),
              ∃ next, (sweepFrom edges nodes k m)[e.target]? = some next ∧ next.live = true)) := by
  intro m
  induction m with
  | zero =>
    intro k hk
    refine ⟨rfl, fun i node hi => ⟨fun _ => hi, fun hle => ?_⟩⟩
    exact absurd (List.getElem?_eq_some_iff.mp hi).1 (by omega)
  | succ m ih =>
    intro k hk
    obtain ⟨hlen, hrest⟩ := ih (k + 1) (by omega)
    have hstep : sweepFrom edges nodes k (m + 1) =
        liveStep edges (sweepFrom edges nodes (k + 1) m) k := by
      rw [sweepFrom, range'_succ, foldr_cons]
      rfl
    generalize sweepFrom edges nodes (k + 1) m = swept at hlen hrest hstep
    rw [hstep, liveStep]
    have hother : ∀ {i : Nat}, i ≠ k → ∀ f : BuildNode → BuildNode,
        (swept.modify k f)[i]? = swept[i]? :=
      fun hne f => getElem?_modify_ne _ _ (Ne.symm hne)
    refine ⟨by rw [length_modify]; exact hlen, fun i node hi => ⟨fun hlt => ?_, fun hle => ?_⟩⟩
    · rw [hother (by omega)]
      exact (hrest i node hi).1 (by omega)
    · have hahead : ∀ {live : BuildNode → Bool},
          (∃ e ∈ slice edges node.edgeStart (node.edgeStart + node.edgeCount),
            ∃ next, (swept.modify k fun n => { n with live := live n })[e.target]? = some next ∧
              next.live = true) ↔
          ∃ e ∈ slice edges node.edgeStart (node.edgeStart + node.edgeCount),
            ∃ next, swept[e.target]? = some next ∧ next.live = true := by
        intro live
        refine exists_congr fun e => and_congr_right fun he => ?_
        rw [hother (by have := (hforward i node hi e he).1; omega)]
      rcases Nat.eq_or_lt_of_le hle with rfl | hgt
      · have hold := (hrest k node hi).1 (by omega)
        refine ⟨{ node with live := node.live || (slice edges node.edgeStart
            (node.edgeStart + node.edgeCount)).any fun edge =>
              (swept.getD edge.target default).live }, ?_, rfl, ?_⟩
        · rw [getElem?_modify_eq, hold]
          rfl
        rw [hahead, Bool.or_eq_true, any_eq_true]
        refine or_congr_right (exists_congr fun e => and_congr_right fun he => ?_)
        have hlt := (hforward k node hi e he).2
        rw [← hlen] at hlt
        rw [getD_eq_getElem?_getD, getElem?_eq_getElem hlt]
        simp
      · obtain ⟨node', hnode', hsame, hlive⟩ := (hrest i node hi).2 hgt
        refine ⟨node', by rw [hother (by omega)]; exact hnode', hsame, ?_⟩
        rw [hahead]
        exact hlive

/-! ## Paths and runs -/

/-- A path to an accepting node. -/
inductive GraphPath (graph : BuildOrderGraph) : Nat → List BuildEdge → Prop
  | accept {i : Nat} {node : BuildNode} : graph.nodes[i]? = some node → node.accepting = true →
      GraphPath graph i []
  | edge {i : Nat} {node : BuildNode} {e : BuildEdge} {rest : List BuildEdge} :
      graph.nodes[i]? = some node → e ∈ graph.edgesOf node → GraphPath graph e.target rest →
      GraphPath graph i (e :: rest)

/-- The operation and the pose. -/
def edgeLabel (e : BuildEdge) : Nat × RotationState × Int × Int :=
  (e.operationIndex, e.rotation, e.x, e.y)

def Lock.label (lock : Lock) : Nat × RotationState × Int × Int :=
  (lock.operation, lock.realization.rotation, lock.realization.x, lock.realization.lockY)

/-- Collision-free, and what the mode asks for: in the ordinary modes, grounded and reachable by the
    workspace on the board the lock meets. -/
def Legal (request : BuildRequest) (profile : KickTableProfile) (board : Board)
    (piece : PieceKind) (inst : InstantiatedRealization) : Prop :=
  (board &&& inst.lockMask) = 0 ∧ Allowed request profile board piece inst

/-- From a state, an order that locks everything else legally and ends on the board asked for. -/
def Completes (request : BuildRequest) (profile : KickTableProfile) (p : CandidateProjection)
    (subset : Subset) (board : Board) (deleted : Rows) (locks : List Lock) : Prop :=
  ∃ deleted', LockRun request.catalog request.candidate (Legal request profile) subset board deleted
    locks p.allPlaced request.completion.expected deleted'

/-- The graph of a request, and the subset of operations each node stands for. -/
structure OrdersExact (request : BuildRequest) (profile : KickTableProfile)
    (p : CandidateProjection) (graph : BuildOrderGraph) (subsets : List Subset) : Prop where
  root : graph.root = 0 ∧ subsets[0]? = some 0
  nodes : subsets.length = graph.nodes.length ∧ subsets.Nodup
  sound : ∀ (i : Nat) (subset : Subset) (es : List BuildEdge), subsets[i]? = some subset →
    GraphPath graph i es → ∃ locks, Completes request profile p subset (p.computeState subset).1
      (p.computeState subset).2 locks ∧ es.map edgeLabel = locks.map Lock.label
  complete : ¬Representative request → ∀ (i : Nat) (subset : Subset) (locks : List Lock),
    subsets[i]? = some subset → Completes request profile p subset (p.computeState subset).1
      (p.computeState subset).2 locks →
    ∃ es, GraphPath graph i es ∧ es.map edgeLabel = locks.map Lock.label
  operations : ∀ (i : Nat) (subset : Subset) (locks : List Lock), subsets[i]? = some subset →
    Completes request profile p subset (p.computeState subset).1 (p.computeState subset).2 locks →
    ∃ es, GraphPath graph i es ∧ es.map BuildEdge.operationIndex = locks.map Lock.operation
  single : Representative request → ∀ (i : Nat) (node : BuildNode), graph.nodes[i]? = some node →
    ∀ e ∈ graph.edgesOf node, ∀ e' ∈ graph.edgesOf node,
      e.operationIndex = e'.operationIndex → e = e'
  live : ∀ (i : Nat) (subset : Subset) (node : BuildNode), subsets[i]? = some subset →
    graph.nodes[i]? = some node → (node.live = true ↔ ∃ locks, Completes request profile p subset
      (p.computeState subset).1 (p.computeState subset).2 locks)

section

variable {width height : Nat} {initialBoard requiredCells : Board} {request : BuildRequest}
  {p : CandidateProjection} {profile : KickTableProfile}

variable {subset : Subset}

variable (hb : BuildProblem width height initialBoard requiredCells request p)

include hb in
theorem completes_cons_iff {lock : Lock} {rest : List Lock} :
    Completes request profile p subset (p.computeState subset).1 (p.computeState subset).2
        (lock :: rest) ↔ (∃ e, Next request profile p subset lock e) ∧
        Completes request profile p (subset ||| rowBit lock.operation)
          (p.computeState (subset ||| rowBit lock.operation)).1
          (p.computeState (subset ||| rowBit lock.operation)).2 rest := by
  obtain ⟨buildTarget, hcat⟩ := hb.catalog
  constructor
  · rintro ⟨deleted', hrun⟩
    cases hrun with
    | cons hunplaced hid hskeleton hinst hlegal hmerge hrest =>
      obtain ⟨-, -, cleared, hclear, hmerge'⟩ :=
        lock_step hcat hb.tiling hb.projects hunplaced hid hinst
      rw [hcat.width_eq, hcat.height_eq] at hmerge hrest
      rw [hclear] at hmerge hrest
      rw [Option.some.inj (hmerge.symm.trans hmerge')] at hrest
      exact ⟨⟨_, hunplaced, _, _, hid, hskeleton, hinst, hlegal.2, rfl⟩, deleted', hrest⟩
  · rintro ⟨⟨e, hunplaced, rowId, row, hid, hskeleton, hinst, hallowed, -⟩, deleted', hrest⟩
    obtain ⟨hfree, -, cleared, hclear, hmerge⟩ :=
      lock_step hcat hb.tiling hb.projects hunplaced hid hinst
    refine ⟨deleted', @LockRun.cons _ _ (Legal request profile) _ _ _ _ _
      (p.computeState (subset ||| rowBit lock.operation)).2 _ _ _ _ _ hunplaced hid hskeleton hinst
      ⟨hfree, hallowed⟩ ?_ ?_⟩
    · rw [hcat.width_eq, hcat.height_eq, hclear]
      exact hmerge
    · rw [hcat.width_eq, hcat.height_eq, hclear]
      exact hrest

theorem completes_nil_iff :
    Completes request profile p subset (p.computeState subset).1 (p.computeState subset).2 [] ↔
      subset = p.allPlaced ∧ (p.computeState subset).1 = request.completion.expected := by
  constructor
  · rintro ⟨deleted', hrun⟩
    generalize hb : (p.computeState subset).1 = board at hrun
    generalize hd : (p.computeState subset).2 = deleted at hrun
    cases hrun
    exact ⟨rfl, rfl⟩
  · rintro ⟨hsub, hboard⟩
    refine ⟨(p.computeState subset).2, ?_⟩
    rw [hboard, ← hsub]
    exact .nil _ _ _

/-! ## The edges of a node -/

/-- The edges a node has in the graph. -/
structure NodeExact (request : BuildRequest) (profile : KickTableProfile)
    (p : CandidateProjection) (subsets : List Subset) (subset : Subset) (edges : List BuildEdge) :
    Prop where
  sound : ∀ e ∈ edges, ∃ lock e0, Next request profile p subset lock e0 ∧
    edgeLabel e = lock.label ∧ subsets[e.target]? = some (subset ||| rowBit lock.operation)
  some_of_allowed : ∀ lock e0, Next request profile p subset lock e0 →
    ∃ e ∈ edges, e.operationIndex = lock.operation ∧
      subsets[e.target]? = some (subset ||| rowBit lock.operation)
  complete : ¬Representative request → ∀ lock e0, Next request profile p subset lock e0 →
    ∃ e ∈ edges, edgeLabel e = lock.label ∧
      subsets[e.target]? = some (subset ||| rowBit lock.operation)
  single : Representative request → ∀ e ∈ edges, ∀ e' ∈ edges,
    e.operationIndex = e'.operationIndex → e = e'

theorem Next.label {lock : Lock} {e : BuildEdge} (h : Next request profile p subset lock e) :
    edgeLabel e = lock.label := by
  obtain ⟨_, _, _, _, _, _, rfl⟩ := h.lock
  rfl

include hb in
theorem Next.mem_permitted
    {lock : Lock} {e : BuildEdge} (h : Next request profile p subset lock e) :
    lock.operation ∈ request.permittedOperations p.operationCount subset := by
  obtain ⟨_, _, hid, _⟩ := h.lock
  exact (mem_permittedOperations hb).mpr ⟨(List.getElem?_eq_some_iff.mp hid).1, h.unplaced⟩

theorem forall₂_mem_right {α β : Type} {r : α → β → Prop} {l : List α} {l' : List β}
    (h : List.Forall₂ r l l') : ∀ b ∈ l', ∃ a ∈ l, r a b := by
  induction h with
  | nil => simp
  | cons hr _ ih =>
    intro b hb
    rcases mem_cons.mp hb with rfl | hb
    · exact ⟨_, mem_cons_self, hr⟩
    · obtain ⟨a, ha, hab⟩ := ih b hb
      exact ⟨a, mem_cons_of_mem _ ha, hab⟩

include hb in
/-- Resolving a node's collected edges loses nothing. -/
theorem NodeDone.exact
    {subsets : List Subset} (hnodup : subsets.Nodup) {edges : List BuildEdge} {node : BuildNode}
    (h : NodeDone request profile p subsets edges subset node)
    (hwithin : RowsBelow request.candidate.rowIds.length subset) :
    NodeExact request profile p subsets subset
      (slice edges node.edgeStart (node.edgeStart + node.edgeCount)) := by
  obtain ⟨collected, hedges, hres⟩ := h.collected
  -- the node an edge was resolved to stands for the subset the edge was collected with
  have htarget : ∀ {lock : Lock} {e0 e : BuildEdge}, Next request profile p subset lock e0 →
      Resolves subsets e0 e → edgeLabel e = lock.label ∧
        subsets[e.target]? = some (subset ||| rowBit lock.operation) := by
    rintro lock e0 e hnext ⟨j, hj, rfl⟩
    rw [(hnext.target hb.projects hwithin).1, BitVec.ofNat_toNat, BitVec.setWidth_eq] at hj
    exact ⟨hnext.label, hj⟩
  refine ⟨fun e he => ?_, fun lock e0 hnext => ?_, fun hr lock e0 hnext => ?_,
    fun hr e he e' he' hidx => ?_⟩
  · obtain ⟨e0, he0, hr⟩ := forall₂_mem_right hres e he
    obtain ⟨lock, hnext, -⟩ := hedges.sound e0 he0
    exact ⟨lock, e0, hnext, htarget hnext hr⟩
  · obtain ⟨e0', he0', hidx⟩ := hedges.some_of_allowed lock e0 (hnext.mem_permitted hb) hnext
    obtain ⟨e, he, hr⟩ := forall₂_mem_right hres.flip e0' he0'
    obtain ⟨lock', hnext', -⟩ := hedges.sound e0' he0'
    obtain ⟨hlabel, hsub⟩ := htarget hnext' hr
    have hop : lock'.operation = lock.operation := hnext'.operationIndex.symm.trans hidx
    rw [hop] at hsub
    exact ⟨e, he, (congrArg Prod.fst hlabel).trans hop, hsub⟩
  · obtain ⟨e, he, hres'⟩ := forall₂_mem_right hres.flip e0
      (hedges.complete hr lock e0 (hnext.mem_permitted hb) hnext)
    exact ⟨e, he, htarget hnext hres'⟩
  · obtain ⟨a, ha, j, hj, rfl⟩ := forall₂_mem_right hres e he
    obtain ⟨b, hb', k, hk, rfl⟩ := forall₂_mem_right hres e' he'
    obtain rfl := hedges.single hr a ha b hb' hidx
    -- the queue lists a subset once
    have hjk : j = k := (List.getElem?_inj (List.getElem?_eq_some_iff.mp hj).1 hnodup).mp
      (hj.trans hk.symm)
    rw [hjk]

/-! ## The finished graph -/

/-- What the loop and the sweep leave, node by node. -/
structure GraphExact (request : BuildRequest) (profile : KickTableProfile)
    (p : CandidateProjection) (graph : BuildOrderGraph) (subsets : List Subset) : Prop where
  root : graph.root = 0 ∧ subsets[0]? = some 0
  nodes : subsets.length = graph.nodes.length ∧ subsets.Nodup
  edges : ∀ (i : Nat) (subset : Subset) (node : BuildNode), subsets[i]? = some subset →
    graph.nodes[i]? = some node →
    NodeExact request profile p subsets subset (graph.edgesOf node)
  forward : ∀ (i : Nat) (node : BuildNode), graph.nodes[i]? = some node →
    ∀ e ∈ graph.edgesOf node, i < e.target ∧ e.target < graph.nodes.length
  accepting : ∀ (i : Nat) (subset : Subset) (node : BuildNode), subsets[i]? = some subset →
    graph.nodes[i]? = some node → (node.accepting = true ↔
      subset = p.allPlaced ∧ (p.computeState subset).1 = request.completion.expected)
  live : ∀ (i : Nat) (node : BuildNode), graph.nodes[i]? = some node →
    (node.live = true ↔ node.accepting = true ∨ ∃ e ∈ graph.edgesOf node,
      ∃ next, graph.nodes[e.target]? = some next ∧ next.live = true)

include hb in
theorem LoopInv.graphExact {g : BuildProgress}
    (h : LoopInv request profile p g.queue.length g) (share : Bool) :
    GraphExact request profile p
      ⟨propagateLive g.edges g.nodes, g.edges, g.pieceEdges, share, 0⟩ g.queue := by
  have hlen := h.table.length_eq
  have hvisited : ∀ {i : Nat} {node : BuildNode}, g.nodes[i]? = some node →
      ∃ subset, g.queue[i]? = some subset ∧
        NodeDone request profile p g.queue g.edges subset node ∧
        RowsBelow request.candidate.rowIds.length subset := by
    intro i node hi
    have hlt : i < g.queue.length := hlen ▸ (List.getElem?_eq_some_iff.mp hi).1
    have hsubset := List.getElem?_eq_getElem hlt
    exact ⟨_, hsubset, h.done i _ node hlt hsubset hi, h.table.within _ (getElem_mem hlt)⟩
  -- a lock adds an operation, so its edge leads to a larger and therefore later subset
  have hforward : ∀ (i : Nat) (node : BuildNode), g.nodes[i]? = some node →
      ∀ e ∈ slice g.edges node.edgeStart (node.edgeStart + node.edgeCount),
        i < e.target ∧ e.target < g.nodes.length := by
    intro i node hi e he
    obtain ⟨subset, hsubset, hdone, hwithin⟩ := hvisited hi
    obtain ⟨lock, e0, hnext, -, htarget⟩ := (hdone.exact hb h.table.nodup hwithin).sound e he
    refine ⟨h.frontier.forward hsubset htarget ?_, ?_⟩
    · rw [(hnext.target hb.projects hwithin).2.2]
      exact Nat.lt_succ_self _
    · rw [hlen]
      exact (List.getElem?_eq_some_iff.mp htarget).1
  obtain ⟨hsweptLen, hswept⟩ := sweepFrom_spec hforward g.nodes.length 0 (Nat.zero_add _)
  rw [← propagateLive_eq] at hsweptLen hswept
  -- each node of the graph is the visited one up to its flag
  have hnode : ∀ {i : Nat} {node' : BuildNode},
      (propagateLive g.edges g.nodes)[i]? = some node' → ∃ node, g.nodes[i]? = some node ∧
        SameButLive node node' ∧ (node'.live = true ↔ node.live = true ∨
          ∃ e ∈ slice g.edges node.edgeStart (node.edgeStart + node.edgeCount),
            ∃ next, (propagateLive g.edges g.nodes)[e.target]? = some next ∧
              next.live = true) := by
    intro i node' hi
    have hlt : i < g.nodes.length := hsweptLen ▸ (List.getElem?_eq_some_iff.mp hi).1
    have hold := List.getElem?_eq_getElem hlt
    obtain ⟨node'', hnode'', hsame, hlive⟩ := (hswept i _ hold).2 (Nat.zero_le i)
    cases hnode''.symm.trans hi
    exact ⟨_, hold, hsame, hlive⟩
  refine ⟨⟨rfl, h.root⟩, ⟨hlen.symm.trans hsweptLen.symm, h.table.nodup⟩, ?_, ?_, ?_, ?_⟩
  · intro i subset node' hsub hi
    obtain ⟨node, hold, hsame, -⟩ := hnode hi
    obtain ⟨subset', hsub', hdone, hwithin⟩ := hvisited hold
    cases hsub'.symm.trans hsub
    rw [hsame]
    exact hdone.exact hb h.table.nodup hwithin
  · intro i node' hi e he
    obtain ⟨node, hold, hsame, -⟩ := hnode hi
    rw [hsame] at he
    rw [hsweptLen]
    exact hforward i node hold e he
  · intro i subset node' hsub hi
    obtain ⟨node, hold, hsame, -⟩ := hnode hi
    obtain ⟨subset', hsub', hdone, -⟩ := hvisited hold
    cases hsub'.symm.trans hsub
    rw [hsame]
    exact hdone.accepting
  · intro i node' hi
    obtain ⟨node, hold, hsame, hlive⟩ := hnode hi
    obtain ⟨_, -, hdone, -⟩ := hvisited hold
    rw [hlive, hdone.live, hsame]
    exact Iff.rfl

section

variable {graph : BuildOrderGraph} {subsets : List Subset}

section

variable (h : GraphExact request profile p graph subsets)
include h

theorem GraphExact.node {i : Nat}
    (hi : subsets[i]? = some subset) : ∃ node, graph.nodes[i]? = some node :=
  ⟨_, List.getElem?_eq_getElem (h.nodes.1 ▸ (List.getElem?_eq_some_iff.mp hi).1)⟩

include hb in
theorem GraphExact.run_of_path {i : Nat} {es : List BuildEdge} (hpath : GraphPath graph i es) :
    ∀ {subset : Subset}, subsets[i]? = some subset → ∃ locks, Completes request profile p subset
      (p.computeState subset).1 (p.computeState subset).2 locks ∧
        es.map edgeLabel = locks.map Lock.label := by
  induction hpath with
  | accept hnode haccept =>
    intro subset hsub
    exact ⟨[], completes_nil_iff.mpr ((h.accepting _ subset _ hsub hnode).mp haccept), rfl⟩
  | edge hnode he _ ih =>
    intro subset hsub
    obtain ⟨lock, e0, hnext, hlabel, htarget⟩ := (h.edges _ subset _ hsub hnode).sound _ he
    obtain ⟨rest, hrest, hlabels⟩ := ih htarget
    refine ⟨lock :: rest, (completes_cons_iff hb).mpr ⟨⟨e0, hnext⟩, hrest⟩, ?_⟩
    rw [map_cons, map_cons, hlabel, hlabels]

include hb in
/-- A run is followed edge by edge, as far as its edges can be told apart by `view`. -/
theorem GraphExact.path_of_run {α : Type} (view : BuildEdge → α) (view' : Lock → α)
    (hview : ∀ {subset : Subset} {es : List BuildEdge},
      NodeExact request profile p subsets subset es → ∀ lock e0,
        Next request profile p subset lock e0 → ∃ e ∈ es, view e = view' lock ∧
          subsets[e.target]? = some (subset ||| rowBit lock.operation)) :
    ∀ (locks : List Lock) {i : Nat} {subset : Subset}, subsets[i]? = some subset →
      Completes request profile p subset (p.computeState subset).1 (p.computeState subset).2 locks →
      ∃ es, GraphPath graph i es ∧ es.map view = locks.map view' := by
  intro locks
  induction locks with
  | nil =>
    intro i subset hsub hrun
    obtain ⟨node, hnode⟩ := h.node hsub
    exact ⟨[], .accept hnode ((h.accepting i subset node hsub hnode).mpr
      (completes_nil_iff.mp hrun)), rfl⟩
  | cons lock rest ih =>
    intro i subset hsub hrun
    obtain ⟨node, hnode⟩ := h.node hsub
    obtain ⟨⟨e0, hnext⟩, hrest⟩ := (completes_cons_iff hb).mp hrun
    obtain ⟨e, he, hlabel, htarget⟩ := hview (h.edges i subset node hsub hnode) lock e0 hnext
    obtain ⟨es, hpath, hlabels⟩ := ih htarget hrest
    refine ⟨e :: es, .edge hnode he hpath, ?_⟩
    rw [map_cons, map_cons, hlabel, hlabels]

theorem GraphExact.live_of_path {i : Nat} {es : List BuildEdge} (hpath : GraphPath graph i es) :
    ∀ {node : BuildNode}, graph.nodes[i]? = some node → node.live = true := by
  induction hpath with
  | accept hnode haccept =>
    intro node hi
    cases hnode.symm.trans hi
    exact (h.live _ _ hnode).mpr (Or.inl haccept)
  | edge hnode he hrest ih =>
    intro node hi
    cases hnode.symm.trans hi
    have hnext := getElem?_eq_getElem (h.forward _ _ hnode _ he).2
    exact (h.live _ _ hnode).mpr (Or.inr ⟨_, he, _, hnext, ih hnext⟩)

/-- A live node has a path. Induction on its distance from the last node. -/
theorem GraphExact.path_of_live :
    ∀ (distance i : Nat) (node : BuildNode), graph.nodes.length - i = distance →
      graph.nodes[i]? = some node → node.live = true → ∃ es, GraphPath graph i es := by
  intro distance
  induction distance using Nat.strong_induction_on with
  | _ distance ih =>
    intro i node hdist hnode hlive
    rcases (h.live i node hnode).mp hlive with haccept | ⟨e, he, next, hnext, hlive'⟩
    · exact ⟨[], .accept hnode haccept⟩
    · have hlt := h.forward i node hnode e he
      obtain ⟨es, hpath⟩ := ih (graph.nodes.length - e.target) (by omega) e.target next rfl hnext
        hlive'
      exact ⟨e :: es, .edge hnode he hpath⟩

include hb in
theorem GraphExact.ordersExact :
    OrdersExact request profile p graph subsets := by
  have hoperations := h.path_of_run hb BuildEdge.operationIndex Lock.operation
    fun hnode => hnode.some_of_allowed
  refine ⟨h.root, h.nodes, fun i subset es hsub hpath => h.run_of_path hb hpath hsub,
    fun hr i subset locks hsub hrun => ?_,
    fun i subset locks hsub hrun => hoperations locks hsub hrun,
    fun hr i node hnode => ?_, fun i subset node hsub hnode => ⟨fun hlive => ?_, ?_⟩⟩
  · exact h.path_of_run hb edgeLabel Lock.label (fun hnode => hnode.complete hr) locks hsub hrun
  · have hlt := (List.getElem?_eq_some_iff.mp hnode).1
    rw [← h.nodes.1] at hlt
    exact (h.edges i _ node (getElem?_eq_getElem hlt) hnode).single hr
  · obtain ⟨es, hpath⟩ := h.path_of_live _ i node rfl hnode hlive
    obtain ⟨locks, hrun, -⟩ := h.run_of_path hb hpath hsub
    exact ⟨locks, hrun⟩
  · rintro ⟨locks, hrun⟩
    obtain ⟨es, hpath, -⟩ := hoperations locks hsub hrun
    exact h.live_of_path hpath hnode

end

end

end

end Clearra.Proof.Executor
