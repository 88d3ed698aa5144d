import Clearra.Proof.Executor.BuildEdges

/-!
# The graph of build orders

The construction visits subsets breadth first, and a lock adds one operation, so the queue is
ordered by size and edges only ever lead forward (`Frontier.forward`). That is all the liveness
sweep needs: going backwards, everything an edge leads to has been decided. With the edges of each
node known from `Proof/Executor/BuildEdges.lean`, paths of the graph and runs of locks are the same
thing read twice.
-/

namespace Clearra.Proof.Executor

open Clearra.Executor Lib List Nat Option
open Clearra.Rules

/-! ## Subsets -/

variable {subset : Subset}

theorem countOnes_place {i : Nat} (hi : i < 16) (h : subset.getLsbD i = false) :
    countOnes (subset ||| rowBit i) = countOnes subset + 1 := by
  have hcount : ∀ n, (List.range n).countP (fun k => (subset ||| rowBit i).getLsbD k) =
      (List.range n).countP (fun k => subset.getLsbD k) + if i < n then 1 else 0 := by
    intro n
    induction n with
    | zero => simp
    | succ n ih =>
      rw [range_succ, countP_append, countP_append, ih, countP_singleton,
        countP_singleton, BitVec.getLsbD_or, getLsbD_rowBit]
      rcases Nat.lt_trichotomy i n with hlt | rfl | hgt
      · have hne : ¬(n = i ∧ n < 16) := by omega
        simp only [hne, decide_false, Bool.or_false, if_pos hlt, if_pos (show i < n + 1 by omega)]
        omega
      · rw [h, decide_eq_true ⟨rfl, hi⟩, Bool.false_or, if_neg (Nat.lt_irrefl i),
          if_pos (lt_succ_self i)]
        rfl
      · have hne : ¬(n = i ∧ n < 16) := by omega
        simp only [hne, decide_false, Bool.or_false, if_neg (show ¬i < n by omega),
          if_neg (show ¬i < n + 1 by omega)]
        omega
  rw [countOnes, countOnes, hcount 16, if_pos hi]

theorem rowsBelow_place {n : Nat} {i : Nat} (h : RowsBelow n subset) (hi : i < n) :
    RowsBelow n (subset ||| rowBit i) := by
  intro k hk
  rw [BitVec.getLsbD_or, Bool.or_eq_true, getLsbD_rowBit, decide_eq_true_eq] at hk
  rcases hk with hk | ⟨rfl, -⟩
  · exact h k hk
  · exact hi

/-! ## The table of nodes -/

/-- Nodes, queue and table agree. -/
structure TableOk (n : Nat) (g : BuildProgress) : Prop where
  length_eq : g.nodes.length = g.queue.length
  nodup : g.queue.Nodup
  ids : ∀ (subset : Subset) (i : Nat),
    g.nodeIds.get? subset.toNat = some i ↔ g.queue[i]? = some subset
  size : 2 ^ n ≤ g.nodeIds.size
  within : ∀ subset ∈ g.queue, RowsBelow n subset

/-- A collected edge, and the same edge with its subset's node. -/
def Resolves (queue : List Subset) (e e' : BuildEdge) : Prop :=
  ∃ j, queue[j]? = some (BitVec.ofNat 16 e.target) ∧ e' = { e with target := j }

variable {queue queue' : List Subset}

theorem Resolves.mono {e e' : BuildEdge} (h : Resolves queue e e') (hgrown : queue <+: queue') :
    Resolves queue' e e' := by
  obtain ⟨j, hj, he⟩ := h
  obtain ⟨more, rfl⟩ := hgrown
  refine ⟨j, ?_, he⟩
  rw [getElem?_append_left (List.getElem?_eq_some_iff.mp hj).1]
  exact hj

/-- What resolving keeps and adds. -/
structure Grows (g g' : BuildProgress) (targets : List Subset) : Prop where
  queue : g.queue <+: g'.queue
  added : ∀ subset ∈ g'.queue, subset ∈ g.queue ∨ subset ∈ targets
  nodes : ∀ (i : Nat) (node : BuildNode), g.nodes[i]? = some node → g'.nodes[i]? = some node
  blank : ∀ (i : Nat) (node : BuildNode), g'.nodes[i]? = some node → g.nodes.length ≤ i →
    node.accepting = false ∧ node.live = false ∧ node.edgeCount = 0
  edges : g'.edges = g.edges
  pieceEdges : g'.pieceEdges = g.pieceEdges

theorem Grows.refl (g : BuildProgress) (targets : List Subset) : Grows g g targets := by
  refine ⟨prefix_refl _, fun s hs => .inl hs, fun _ _ hn => hn, ?_, rfl, rfl⟩
  intro i node hi hle
  exact absurd (List.getElem?_eq_some_iff.mp hi).1 (by omega)

theorem resolve_spec {n : Nat} {g : BuildProgress} (h : TableOk n g) {e : BuildEdge}
    (htarget : e.target = subset.toNat) (hwithin : RowsBelow n subset) :
    TableOk n (g.resolve e).2 ∧ Resolves (g.resolve e).2.queue e (g.resolve e).1 ∧
      Grows g (g.resolve e).2 [subset] := by
  have hback : BitVec.ofNat 16 e.target = subset := by rw [htarget, BitVec.ofNat_toNat]; simp
  rw [BuildProgress.resolve]
  cases hget : g.nodeIds.get? e.target with
  | some j =>
    refine ⟨h, ⟨j, ?_, rfl⟩, Grows.refl g _⟩
    rw [hback]
    exact (h.ids subset j).mp (by rw [← htarget]; exact hget)
  | none =>
    have hnew : subset ∉ g.queue := by
      intro hmem
      obtain ⟨i, hi⟩ := mem_iff_getElem?.mp hmem
      rw [htarget, (h.ids subset i).mpr hi] at hget
      simp at hget
    have hlast : (g.queue ++ [subset])[g.queue.length]? = some subset := by simp
    dsimp only
    rw [hback]
    refine ⟨⟨?_, ?_, ?_, ?_, ?_⟩, ⟨g.nodes.length, ?_, rfl⟩, prefix_append _ _, ?_, ?_, ?_,
      rfl, rfl⟩
    · simp [h.length_eq]
    · exact nodup_append.mpr ⟨h.nodup, nodup_singleton _, fun a ha b hb hab =>
        hnew (by rw [← mem_singleton.mp hb, ← hab]; exact ha)⟩
    · intro other i
      dsimp only
      by_cases hsame : other = subset
      · subst hsame
        rw [htarget, Stamped.get?_set_self (lt_of_lt_of_le hwithin.toNat_lt h.size),
          Option.some.injEq, h.length_eq]
        constructor
        · rintro rfl
          exact hlast
        · intro hi
          by_contra hne
          have hlt : i < g.queue.length := by
            have := (List.getElem?_eq_some_iff.mp hi).1
            simp only [length_append, length_singleton] at this
            omega
          rw [getElem?_append_left hlt] at hi
          exact hnew (mem_of_getElem? hi)
      · have hne : e.target ≠ other.toNat := by
          rw [htarget]
          exact fun heq => hsame (BitVec.eq_of_toNat_eq heq.symm)
        rw [Stamped.get?_set_ne hne, h.ids]
        constructor
        · intro hi
          rw [getElem?_append_left (List.getElem?_eq_some_iff.mp hi).1]
          exact hi
        · intro hi
          rcases Nat.lt_or_ge i g.queue.length with hlt | hge
          · rwa [getElem?_append_left hlt] at hi
          · rw [getElem?_append_right hge] at hi
            exact absurd (mem_singleton.mp (mem_of_getElem? hi)) hsame
    · rw [Stamped.size_set]
      exact h.size
    · intro other hother
      rcases mem_append.mp hother with hmem | hmem
      · exact h.within other hmem
      · rw [mem_singleton.mp hmem]
        exact hwithin
    · rw [h.length_eq, hback]
      exact hlast
    · intro other hother
      exact mem_append.mp hother
    · intro i node hi
      rw [getElem?_append_left (List.getElem?_eq_some_iff.mp hi).1]
      exact hi
    · intro i node hi hle
      rw [getElem?_append_right hle] at hi
      rw [mem_singleton.mp (mem_of_getElem? hi)]
      exact ⟨rfl, rfl, rfl⟩

theorem Grows.trans {g g' g'' : BuildProgress} {a b : List Subset} (h : Grows g g' a)
    (h' : Grows g' g'' b) : Grows g g'' (a ++ b) := by
  refine ⟨h.queue.trans h'.queue, ?_, fun i node hi => h'.nodes i node (h.nodes i node hi), ?_,
    h'.edges.trans h.edges, h'.pieceEdges.trans h.pieceEdges⟩
  · intro subset hmem
    rcases h'.added subset hmem with hmem | hmem
    · exact (h.added subset hmem).imp_right fun hm => mem_append_left _ hm
    · exact .inr (mem_append_right _ hmem)
  · intro i node hi hle
    rcases Nat.lt_or_ge i g'.nodes.length with hlt | hge
    · have hget := getElem?_eq_getElem hlt
      rw [h'.nodes i _ hget] at hi
      rw [← Option.some.inj hi]
      exact h.blank i _ hget hle
    · exact h'.blank i node hi hge

theorem resolveAll_spec {n : Nat} : ∀ (es : List BuildEdge) (targets : List Subset)
    (g : BuildProgress), TableOk n g →
      List.Forall₂ (fun e subset => e.target = subset.toNat ∧ RowsBelow n subset) es targets →
      TableOk n (BuildProgress.resolveAll es g).2 ∧
        List.Forall₂ (Resolves (BuildProgress.resolveAll es g).2.queue) es
          (BuildProgress.resolveAll es g).1 ∧
        Grows g (BuildProgress.resolveAll es g).2 targets := by
  intro es
  induction es with
  | nil =>
    intro targets g h htargets
    cases htargets
    exact ⟨h, .nil, Grows.refl g _⟩
  | cons e rest ih =>
    intro targets g h htargets
    cases htargets with
    | cons hhead htail =>
      obtain ⟨h1, hres, hgrow⟩ := resolve_spec h hhead.1 hhead.2
      obtain ⟨h2, hall, hgrow'⟩ := ih _ _ h1 htail
      rw [BuildProgress.resolveAll]
      exact ⟨h2, .cons (hres.mono hgrow'.queue) hall, hgrow.trans hgrow'⟩

/-! ## The frontier -/

/-- Breadth-first order: sizes ascend along the queue, and nothing in it is more than one larger
    than what is under the cursor. -/
structure Frontier (cursor : Nat) (queue : List Subset) : Prop where
  sorted : ∀ (i j : Nat) (a b : Subset), i ≤ j → queue[i]? = some a → queue[j]? = some b →
    countOnes a ≤ countOnes b
  band : ∀ (j : Nat) (a b : Subset), queue[cursor]? = some a → queue[j]? = some b →
    countOnes b ≤ countOnes a + 1

variable {cursor : Nat}

theorem Frontier.forward {queue : List Subset} (h : Frontier cursor queue) {i j : Nat}
    {a b : Subset} (ha : queue[i]? = some a) (hb : queue[j]? = some b)
    (hlt : countOnes a < countOnes b) : i < j := by
  by_contra hge
  exact absurd (h.sorted j i b a (Nat.le_of_not_lt hge) hb ha) (by omega)

/-- Queueing children of the subset under the cursor and moving on. -/
theorem Frontier.advance (h : Frontier cursor queue) {a : Subset} (ha : queue[cursor]? = some a)
    (hgrown : queue <+: queue') (hadded : ∀ b ∈ queue', b ∈ queue ∨ countOnes b = countOnes a + 1)
    (hnew : ∀ (j : Nat) (b : Subset), queue'[j]? = some b → queue.length ≤ j → b ∉ queue) :
    Frontier (cursor + 1) queue' := by
  obtain ⟨more, rfl⟩ := hgrown
  have hold : ∀ {i : Nat} {b : Subset}, i < queue.length → (queue ++ more)[i]? = some b →
      queue[i]? = some b := by
    intro i b hi hb
    rwa [getElem?_append_left hi] at hb
  have hlate : ∀ {i : Nat} {b : Subset}, queue.length ≤ i → (queue ++ more)[i]? = some b →
      countOnes b = countOnes a + 1 := by
    intro i b hi hb
    exact (hadded b (mem_of_getElem? hb)).resolve_left (hnew i b hb hi)
  have hall : ∀ {i : Nat} {b : Subset}, (queue ++ more)[i]? = some b →
      countOnes b ≤ countOnes a + 1 := by
    intro i b hb
    rcases Nat.lt_or_ge i queue.length with hi | hi
    · exact h.band i a b ha (hold hi hb)
    · exact Nat.le_of_eq (hlate hi hb)
  refine ⟨fun i j b c hij hb hc => ?_, fun j b c hb hc => ?_⟩
  · rcases Nat.lt_or_ge j queue.length with hj | hj
    · exact h.sorted i j b c hij (hold (by omega) hb) (hold hj hc)
    · rw [hlate hj hc]
      exact hall hb
  · have hab : countOnes a ≤ countOnes b := by
      rcases Nat.lt_or_ge (cursor + 1) queue.length with hi | hi
      · exact h.sorted cursor (cursor + 1) a b (le_succ _) ha (hold hi hb)
      · rw [hlate hi hb]
        exact le_succ _
    exact (hall hc).trans (succ_le_succ hab)

/-! ## The loop -/

/-- A visited node: its edges, resolved, and whether it accepts. -/
structure NodeDone (request : BuildRequest) (profile : KickTableProfile)
    (p : CandidateProjection) (queue : List Subset) (edges : List BuildEdge) (subset : Subset)
    (node : BuildNode) : Prop where
  collected : ∃ collected, NodeEdges request profile p subset
      (request.permittedOperations p.operationCount subset) collected ∧
    List.Forall₂ (Resolves queue) collected
      (slice edges node.edgeStart (node.edgeStart + node.edgeCount))
  range : node.edgeStart + node.edgeCount ≤ edges.length
  accepting : node.accepting = true ↔
    subset = p.allPlaced ∧ (p.computeState subset).1 = request.completion.expected
  live : node.live = node.accepting

structure LoopInv (request : BuildRequest) (profile : KickTableProfile) (p : CandidateProjection)
    (cursor : Nat) (g : BuildProgress) : Prop where
  table : TableOk request.candidate.rowIds.length g
  frontier : Frontier cursor g.queue
  root : g.queue[0]? = some 0
  cursor_le : cursor ≤ g.queue.length
  done : ∀ (i : Nat) (subset : Subset) (node : BuildNode), i < cursor →
    g.queue[i]? = some subset → g.nodes[i]? = some node →
    NodeDone request profile p g.queue g.edges subset node
  pending : ∀ (i : Nat) (node : BuildNode), cursor ≤ i → g.nodes[i]? = some node →
    node.accepting = false ∧ node.live = false ∧ node.edgeCount = 0

theorem slice_append {α : Type} {l more : List α} {a b : Nat} (h : b ≤ l.length) :
    slice (l ++ more) a b = slice l a b := by
  rw [slice, slice, drop_append, take_append_of_le_length]
  rw [length_drop]
  omega

theorem NodeDone.mono {request : BuildRequest} {profile : KickTableProfile}
    {p : CandidateProjection} {edges more : List BuildEdge} {node : BuildNode}
    (h : NodeDone request profile p queue edges subset node) (hgrown : queue <+: queue') :
    NodeDone request profile p queue' (edges ++ more) subset node := by
  obtain ⟨collected, hnode, hres⟩ := h.collected
  refine ⟨⟨collected, hnode, ?_⟩, ?_, h.accepting, h.live⟩
  · rw [slice_append h.range]
    exact hres.imp fun _ _ hr => hr.mono hgrown
  · rw [length_append]
    have := h.range
    omega

section

variable {width height : Nat} {initialBoard requiredCells : Board} {request : BuildRequest}
  {p : CandidateProjection} {profile : KickTableProfile} {s : BuildSession}

theorem getLsbD_allPlaced (hp : Projects request.catalog request.candidate p) (i : Nat) :
    p.allPlaced.getLsbD i = true ↔ i < request.candidate.rowIds.length := by
  have hcount := hp.count_le
  rw [CandidateProjection.allPlaced, hp.operationCount, BitVec.getLsbD_ofNat,
    testBit_two_pow_sub_one, Bool.and_eq_true, decide_eq_true_eq, decide_eq_true_eq]
  omega

theorem nodup_permittedOperations (n : Nat) (subset : Subset) :
    (request.permittedOperations n subset).Nodup :=
  nodup_range.filter _

theorem NodeEdges.congr {operations : List Nat} {es es' : List BuildEdge}
    (h : NodeEdges request profile p subset operations es) (heq : ∀ e, e ∈ es' ↔ e ∈ es) :
    NodeEdges request profile p subset operations es' := by
  refine ⟨fun e he => h.sound e ((heq e).mp he), fun lock e hop hl => ?_,
    fun hr lock e hop hl => (heq e).mpr (h.complete hr lock e hop hl),
    fun hr e he e' he' hidx => h.single hr e ((heq e).mp he) e' ((heq e').mp he') hidx⟩
  obtain ⟨e', he', hidx⟩ := h.some_of_allowed lock e hop hl
  exact ⟨e', (heq e').mpr he', hidx⟩

theorem Next.target (hp : Projects request.catalog request.candidate p) {lock : Lock}
    {e : BuildEdge} (h : Next request profile p subset lock e)
    (hwithin : RowsBelow request.candidate.rowIds.length subset) :
    e.target = (subset ||| rowBit lock.operation).toNat ∧
      RowsBelow request.candidate.rowIds.length (subset ||| rowBit lock.operation) ∧
      countOnes (subset ||| rowBit lock.operation) = countOnes subset + 1 := by
  obtain ⟨rowId, row, hid, -, -, -, rfl⟩ := h.lock
  have hlt := (List.getElem?_eq_some_iff.mp hid).1
  have hcount := hp.count_le
  exact ⟨rfl, rowsBelow_place hwithin hlt, countOnes_place (by omega) h.unplaced⟩

theorem getElem?_modify_cases {α : Type} {l : List α} {f : α → α} {i j : Nat} {b : α}
    (h : (l.modify i f)[j]? = some b) :
    (j ≠ i ∧ l[j]? = some b) ∨ (j = i ∧ ∃ a, l[i]? = some a ∧ b = f a) := by
  by_cases hij : j = i
  · subst hij
    rw [getElem?_modify_eq, Option.map_eq_map, Option.map_eq_some_iff] at h
    obtain ⟨a, ha, hb⟩ := h
    exact .inr ⟨rfl, a, ha, hb.symm⟩
  · rw [getElem?_modify_ne _ _ (Ne.symm hij)] at h
    exact .inl ⟨hij, h⟩

/-- Visiting the subset under the cursor: queue larger subsets, append edges, fill in the node. -/
theorem LoopInv.visit {g g1 : BuildProgress} (h : LoopInv request profile p cursor g)
    (hsubset : g.queue[cursor]? = some subset) (htable : TableOk request.candidate.rowIds.length g1)
    {targets : List Subset} (hgrow : Grows g g1 targets)
    (hsizes : ∀ other ∈ targets, countOnes other = countOnes subset + 1) {f : BuildNode → BuildNode}
    (edges pieceEdges : List BuildEdge)
    (hnew : ∀ old : BuildNode, old.accepting = false → old.live = false → old.edgeCount = 0 →
      NodeDone request profile p g1.queue (g.edges ++ edges) subset (f old)) :
    LoopInv request profile p (cursor + 1) { g1 with
        nodes := g1.nodes.modify cursor f
        edges := g1.edges ++ edges
        pieceEdges := g1.pieceEdges ++ pieceEdges } := by
  have hlt := (List.getElem?_eq_some_iff.mp hsubset).1
  obtain ⟨more, hmore⟩ := hgrow.queue
  have hqold : ∀ {i : Nat} {other : Subset}, i ≤ cursor → g1.queue[i]? = some other →
      g.queue[i]? = some other := by
    intro i other hi hq
    rwa [← hmore, getElem?_append_left (by omega)] at hq
  have hnold : ∀ {i : Nat} {node : BuildNode}, i ≤ cursor → g1.nodes[i]? = some node →
      g.nodes[i]? = some node := by
    intro i node hi hn
    have hilt : i < g.nodes.length := by
      rw [h.table.length_eq]
      omega
    rw [← hn, hgrow.nodes i _ (getElem?_eq_getElem hilt)]
    exact getElem?_eq_getElem hilt
  refine ⟨⟨?_, htable.nodup, htable.ids, htable.size, htable.within⟩, ?_, ?_, ?_, ?_, ?_⟩
  · rw [length_modify]
    exact htable.length_eq
  · refine h.frontier.advance hsubset hgrow.queue
      (fun b hmem => (hgrow.added b hmem).imp_right (hsizes b)) ?_
    -- a subset is queued once
    intro j b hj hle hmem
    obtain ⟨i, hi⟩ := mem_iff_getElem?.mp hmem
    have hilt := (List.getElem?_eq_some_iff.mp hi).1
    have hi' : g1.queue[i]? = some b := by
      rw [← hmore, getElem?_append_left hilt]
      exact hi
    have hij := (getElem?_inj (List.getElem?_eq_some_iff.mp hi').1 htable.nodup).mp
      (hi'.trans hj.symm)
    omega
  · dsimp only
    rw [← hmore, getElem?_append_left (List.getElem?_eq_some_iff.mp h.root).1]
    exact h.root
  · have := hgrow.queue.length_le
    dsimp only
    omega
  · intro i other node hi hqueue hnodes
    dsimp only at hqueue hnodes ⊢
    rw [hgrow.edges]
    rcases getElem?_modify_cases hnodes with ⟨hne, hn⟩ | ⟨rfl, old, hold, rfl⟩
    · exact (h.done i other node (by omega) (hqold (by omega) hqueue)
        (hnold (by omega) hn)).mono hgrow.queue
    · obtain ⟨haccept, hlive, hedges⟩ := h.pending i old (Nat.le_refl _)
        (hnold (Nat.le_refl _) hold)
      rw [Option.some.inj ((hqold (Nat.le_refl _) hqueue).symm.trans hsubset)]
      exact hnew old haccept hlive hedges
  · intro i node hi hnodes
    rcases getElem?_modify_cases hnodes with ⟨-, hn⟩ | ⟨heq, -⟩
    · rcases Nat.lt_or_ge i g.nodes.length with hilt | hige
      · have hget := getElem?_eq_getElem hilt
        rw [hgrow.nodes i _ hget] at hn
        rw [← Option.some.inj hn]
        exact h.pending i _ (by omega) hget
      · exact hgrow.blank i node hn hige
    · omega

section

variable (hb : BuildProblem width height initialBoard requiredCells request p)
include hb

/-- Everything is placed: no operation is left, and the completion decides. -/
theorem nodeDone_allPlaced {queue : List Subset} {edges : List BuildEdge} {old : BuildNode} (pieceEdgeStart : Nat)
    {accepting : Bool} (haccept : accepting = true ↔
      (p.computeState p.allPlaced).1 = request.completion.expected) (hedges : old.edgeCount = 0) :
    NodeDone request profile p queue edges p.allPlaced
      { old with edgeStart := edges.length, pieceEdgeStart, accepting, live := accepting } := by
  refine ⟨⟨[], ?_, ?_⟩, ?_, ?_, rfl⟩
  · have hnone : request.permittedOperations p.operationCount p.allPlaced = [] := by
      refine eq_nil_iff_forall_not_mem.mpr fun i hi => ?_
      obtain ⟨hilt, hbit⟩ := (mem_permittedOperations hb).mp hi
      rw [(getLsbD_allPlaced hb.projects i).mpr hilt] at hbit
      simp at hbit
    rw [hnone]
    exact ⟨by simp, by simp, by simp, by simp⟩
  · dsimp only
    rw [hedges, slice]
    simp
  · dsimp only
    rw [hedges]
    omega
  · exact haccept.trans (and_iff_right rfl).symm

theorem expand_spec {g : BuildProgress} (h : LoopInv request profile p cursor g) (hs : SessionOk profile p s)
    (hsubset : g.queue[cursor]? = some subset) :
    ∃ g' s', request.expand subset g s = some (g', s') ∧ SessionOk profile p s' ∧
      LoopInv request profile p (cursor + 1) g' := by
  have hindex : (g.nodeIds.get? subset.toNat).getD 0 = cursor := by
    rw [(h.table.ids subset cursor).mpr hsubset]
    rfl
  have hwithin := h.table.within subset (mem_of_getElem? hsubset)
  have hall : s.projection.allPlaced = p.allPlaced := by
    rw [hs.same]
    rfl
  obtain ⟨hstate, hs1⟩ := hs.state subset
  rw [BuildRequest.expand]
  dsimp only
  rw [hindex, hall]
  by_cases hdone : subset = p.allPlaced
  · rw [if_pos hdone]
    refine ⟨_, _, rfl, hs1, ?_⟩
    have hvisit := h.visit hsubset h.table (Grows.refl g []) (by simp)
      (f := fun node => { node with
        edgeStart := g.edges.length
        pieceEdgeStart :=
          if request.sharePieceEdges then g.edges.length else g.pieceEdges.length
        accepting := (request.completion.accepts s.projection subset).1
        live := (request.completion.accepts s.projection subset).1 }) [] []
      (fun old _ _ hedges => by
        rw [append_nil, hdone]
        refine nodeDone_allPlaced hb _ ?_ hedges
        rw [← hdone, ← hstate]
        exact decide_eq_true_iff)
    rwa [append_nil, append_nil] at hvisit
  · rw [if_neg hdone]
    generalize s.projection.state subset = read at hstate hs1 ⊢
    obtain ⟨state, projection⟩ := read
    dsimp only at hstate hs1
    subst hstate
    obtain ⟨collected, s2, hcollect, hs2, hnode⟩ := collectEdges_spec hb subset
      (request.permittedOperations p.operationCount subset) { s with projection }
      (nodup_permittedOperations _ _) (fun i hi => (mem_permittedOperations hb).mp hi) hs1
    have hcount : projection.operationCount = p.operationCount := by
      have hsame := hs1.same
      dsimp only at hsame
      rw [hsame]
      rfl
    dsimp only
    rw [hcount, hcollect]
    have hnode' := hnode.congr fun e => mem_sortDedup (l := collected) (x := e)
    -- the edges lead to subsets that are one operation larger
    have htarget : ∀ e ∈ sortDedup collected, ∃ other : Subset, e.target = other.toNat ∧
        RowsBelow request.candidate.rowIds.length other ∧
        countOnes other = countOnes subset + 1 := by
      intro e he
      obtain ⟨lock, hlock, -⟩ := hnode'.sound e he
      exact ⟨_, hlock.target hb.projects hwithin⟩
    have hforall : List.Forall₂ (fun e other => e.target = BitVec.toNat other ∧
        RowsBelow request.candidate.rowIds.length other) (sortDedup collected)
        ((sortDedup collected).map fun e => (BitVec.ofNat 16 e.target : Subset)) := by
      rw [List.forall₂_map_right_iff, List.forall₂_same]
      intro e he
      obtain ⟨other, heq, hbelow, -⟩ := htarget e he
      rw [heq, BitVec.ofNat_toNat, BitVec.setWidth_eq]
      exact ⟨rfl, hbelow⟩
    have hsizes : ∀ other ∈ (sortDedup collected).map fun e =>
        (BitVec.ofNat 16 e.target : Subset), countOnes other = countOnes subset + 1 := by
      intro other hother
      obtain ⟨e, he, rfl⟩ := mem_map.mp hother
      obtain ⟨other, heq, -, hsize⟩ := htarget e he
      rw [heq, BitVec.ofNat_toNat, BitVec.setWidth_eq]
      exact hsize
    obtain ⟨htable, hres, hgrow⟩ := resolveAll_spec (sortDedup collected) _ g h.table hforall
    refine ⟨_, _, rfl, hs2, h.visit hsubset htable hgrow hsizes _ _ ?_⟩
    intro old haccept hlive _
    refine ⟨⟨sortDedup collected, hnode', ?_⟩, ?_, ?_, ?_⟩
    · dsimp only
      rw [slice, drop_left, Nat.add_sub_cancel_left, take_length]
      exact hres
    · dsimp only
      rw [length_append]
    · dsimp only
      rw [haccept]
      exact ⟨by simp, fun h => absurd h.1 hdone⟩
    · dsimp only
      rw [hlive, haccept]

/-- The loop ends, with every queued subset visited. -/
theorem buildLoop_spec :
    ∀ (fuel cursor : Nat) (g : BuildProgress) (s : BuildSession),
      LoopInv request profile p cursor g → SessionOk profile p s →
      2 ^ request.candidate.rowIds.length ≤ fuel + cursor →
      ∃ g' s', request.buildLoop fuel cursor g s = some (g', s') ∧
        LoopInv request profile p g'.queue.length g' := by
  -- the queue lists distinct subsets, so it is no longer than their number
  have hbound : ∀ {cursor : Nat} {g : BuildProgress}, LoopInv request profile p cursor g →
      g.queue.length ≤ 2 ^ request.candidate.rowIds.length := by
    intro cursor g h
    have hnodup : (g.queue.map BitVec.toNat).Nodup :=
      h.table.nodup.map fun _ _ => BitVec.eq_of_toNat_eq
    have hsub : g.queue.map BitVec.toNat ⊆ List.range (2 ^ request.candidate.rowIds.length) := by
      intro k hk
      obtain ⟨subset, hmem, rfl⟩ := mem_map.mp hk
      exact mem_range.mpr (h.table.within subset hmem).toNat_lt
    simpa using (hnodup.subperm hsub).length_le
  intro fuel
  induction fuel with
  | zero =>
    intro cursor g s h hs hfuel
    have hend : cursor = g.queue.length :=
      Nat.le_antisymm h.cursor_le ((hbound h).trans (by omega))
    rw [BuildRequest.buildLoop, getElem?_eq_none (by omega)]
    exact ⟨g, s, rfl, hend ▸ h⟩
  | succ fuel ih =>
    intro cursor g s h hs hfuel
    rw [BuildRequest.buildLoop]
    cases hsubset : g.queue[cursor]? with
    | none =>
      have hend : cursor = g.queue.length :=
        Nat.le_antisymm h.cursor_le (getElem?_eq_none_iff.mp hsubset)
      exact ⟨g, s, rfl, hend ▸ h⟩
    | some subset =>
      obtain ⟨g1, s1, hexpand, hs1, h1⟩ := expand_spec hb h hs hsubset
      obtain ⟨g2, s2, hrun, h2⟩ := ih (cursor + 1) g1 s1 h1 hs1 (by omega)
      refine ⟨g2, s2, ?_, h2⟩
      dsimp only
      rw [hexpand]
      exact hrun

end

end

end Clearra.Proof.Executor
