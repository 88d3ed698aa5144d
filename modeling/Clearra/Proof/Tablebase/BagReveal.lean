import Clearra.Lib.Paths
import Clearra.Proof.Tablebase.Probability

/-!
# A prepared family lists its draws

The draws of a state are the edges of a graph (`Lib.paths`). Preparing fills the memo with the number
of paths from every state it has seen, and with those of all states one draw further (`MemoOk`), so
that unranking finds every count it asks for. A page is then a run of paths, and the pages up to
exhaustion are all of them.
-/

namespace Clearra.Proof.Tablebase

open Clearra.Tablebase Lib Pc4BagDrawTransition Pc4BagRevealFamily
open List hiding count

/-! ## Draws -/

/-- What can be drawn next. -/
def draws (state : Pc4BagState) : List Pc4BagDrawTransition := state.filled.transitions

/-- The sequences of `n` draws. -/
abbrev drawPaths (n : Nat) (state : Pc4BagState) : List (List Pc4BagDrawTransition) :=
  paths draws nextState n state

/-- The probability of a draw. -/
def drawProbability (transition : Pc4BagDrawTransition) : ℚ :=
  transition.weight.multiplicity / transition.weight.denominator

/-- What a sequence of draws is: its pieces, its probability, the bag it leaves. -/
inductive Drawn : Pc4BagState → List PieceKind → ℚ → Pc4BagState → Prop
  | nil (state : Pc4BagState) : Drawn state [] 1 state
  | cons {state last : Pc4BagState} {piece : PieceKind} {pieces : List PieceKind} {q : ℚ}
      (h : state.filled.remainder piece ≠ 0)
      (rest : Drawn (state.filled.without piece h) pieces q last) :
      Drawn state (piece :: pieces)
        (state.filled.remainder piece / state.filled.remainderTotal * q) last

variable {state : Pc4BagState}

theorem transitions_of_draw {batch : Pc4BagDrawBatch} (h : drawPc4Bag state = .ok batch) :
    batch.transitions = draws state := by
  rw [drawPc4Bag] at h
  obtain ⟨_, -, h⟩ := bind_eq_ok.mp h
  cases h
  rfl

theorem filled_pos (state : Pc4BagState) : 0 < state.filled.remainderTotal := by
  rw [Pc4BagState.filled]
  split
  · exact state.profile.total_pos
  · rename_i h
    exact Nat.pos_of_ne_zero h

theorem mem_pc4BagPieces (piece : PieceKind) : piece ∈ pc4BagPieces := by
  cases piece <;> decide

theorem mem_draws {transition : Pc4BagDrawTransition} :
    transition ∈ draws state ↔ ∃ piece, ∃ h : state.filled.remainder piece ≠ 0, transition =
      ⟨piece, ⟨state.filled.remainder piece, state.filled.remainderTotal⟩,
        state.filled.without piece h⟩ := by
  rw [draws, Pc4BagState.transitions, mem_filterMap]
  constructor
  · rintro ⟨piece, -, h⟩
    split at h
    · simp at h
    · rename_i hne
      exact ⟨piece, hne, (Option.some.inj h).symm⟩
  · rintro ⟨piece, hne, rfl⟩
    exact ⟨piece, mem_pc4BagPieces piece, by rw [dif_neg hne]⟩

theorem draws_increasing (state : Pc4BagState) :
    (draws state).Pairwise fun t t' => t.piece < t'.piece := by
  have hpieces : pc4BagPieces.Pairwise (· < ·) := by decide
  refine List.Pairwise.filterMap _ (fun piece piece' hlt t ht t' ht' => ?_) hpieces
  split at ht
  · simp at ht
  · split at ht'
    · simp at ht'
    · cases ht
      cases ht'
      exact hlt

/-- The pieces that are left share the whole probability. -/
theorem sum_drawProbability (state : Pc4BagState) : ((draws state).map drawProbability).sum = 1 := by
  have hsum : ∀ pieces : List PieceKind, ((pieces.filterMap fun piece =>
      if h : state.filled.remainder piece = 0 then none
      else some (⟨piece, ⟨state.filled.remainder piece, state.filled.remainderTotal⟩,
        state.filled.without piece h⟩ : Pc4BagDrawTransition)).map drawProbability).sum =
      ((pieces.map state.filled.remainder).sum : ℚ) / state.filled.remainderTotal := by
    intro pieces
    induction pieces with
    | nil => simp
    | cons piece pieces ih =>
      rw [filterMap_cons]
      split
      · rename_i hnone
        split at hnone
        · rename_i hzero
          rw [ih, map_cons, sum_cons, hzero, Nat.zero_add]
        · simp at hnone
      · rename_i transition hsome
        split at hsome
        · simp at hsome
        · cases hsome
          rw [map_cons, sum_cons, ih, map_cons, sum_cons, drawProbability]
          push_cast
          rw [add_div]
  have hpos : (state.filled.remainderTotal : ℚ) ≠ 0 := Nat.cast_ne_zero.mpr (filled_pos state).ne'
  rw [draws, Pc4BagState.transitions, hsum, ← state.filled.remainderTotal_eq]
  exact div_self hpos

theorem drawn_of_isPath {path : List Pc4BagDrawTransition} (h : IsPath draws nextState state path) :
    Drawn state (path.map piece) (path.map drawProbability).prod
      (pathEnd nextState state path) := by
  induction path generalizing state with
  | nil => exact .nil state
  | cons transition path ih =>
    obtain ⟨hmem, hpath⟩ := h
    obtain ⟨piece, hne, rfl⟩ := mem_draws.mp hmem
    rw [map_cons, map_cons, prod_cons]
    exact .cons hne (ih hpath)

theorem exists_path_of_drawn {state last : Pc4BagState} {pieces : List PieceKind} {q : ℚ}
    (h : Drawn state pieces q last) : ∃ path, path.map piece = pieces ∧
      IsPath draws nextState state path := by
  induction h with
  | nil state => exact ⟨[], rfl, trivial⟩
  | @cons state last piece pieces q hne rest ih =>
    obtain ⟨path, hpieces, hpath⟩ := ih
    refine ⟨⟨piece, _, state.filled.without piece hne⟩ :: path, ?_, mem_draws.mpr ⟨piece, hne, rfl⟩,
      hpath⟩
    rw [map_cons, hpieces]

/-! ## Counting -/

/-- The memo has the count of a state, if it needs one. -/
def Known (memo : List ((Pc4BagState × Nat) × Nat)) (state : Pc4BagState) (remaining : Nat) : Prop :=
  remaining = 0 ∨ ∃ n, ((state, remaining), n) ∈ memo

/-- Every entry counts paths, and the states one draw further are known. -/
def MemoOk (memo : List ((Pc4BagState × Nat) × Nat)) : Prop :=
  ∀ state remaining n, ((state, remaining), n) ∈ memo → ∃ fewer, remaining = fewer + 1 ∧
    n = (drawPaths remaining state).length ∧ ∀ transition ∈ draws state,
      Known memo transition.nextState fewer

variable {remaining : Nat}

theorem Known.mono {memo memo' : List ((Pc4BagState × Nat) × Nat)} (h : Known memo state remaining)
    (hsubset : memo ⊆ memo') : Known memo' state remaining :=
  h.imp_right fun ⟨n, hn⟩ => ⟨n, hsubset hn⟩

theorem mem_of_lookup_eq_some {α β : Type} [BEq α] [LawfulBEq α] {memo : List (α × β)} {key : α}
    {n : β} (h : memo.lookup key = some n) : (key, n) ∈ memo := by
  obtain ⟨front, back, rfl, -⟩ := lookup_eq_some_iff.mp h
  exact mem_append_right _ mem_cons_self

theorem lookup_of_known {memo : List ((Pc4BagState × Nat) × Nat)} (hmemo : MemoOk memo)
    (h : Known memo state (remaining + 1)) :
    memo.lookup (state, remaining + 1) = some (drawPaths (remaining + 1) state).length := by
  obtain habs | ⟨n, hn⟩ := h
  · exact absurd habs (Nat.succ_ne_zero remaining)
  · cases hlookup : memo.lookup (state, remaining + 1) with
    | none => simpa using lookup_eq_none_iff.mp hlookup _ hn
    | some m =>
      obtain ⟨_, -, hm, -⟩ := hmemo _ _ _ (mem_of_lookup_eq_some hlookup)
      rw [hm]

/-- What counting does to the memo. -/
structure Extends (memo memo' : List ((Pc4BagState × Nat) × Nat)) : Prop where
  subset : memo ⊆ memo'
  ok : MemoOk memo → MemoOk memo'

theorem Extends.refl (memo : List ((Pc4BagState × Nat) × Nat)) : Extends memo memo :=
  ⟨fun _ h => h, id⟩

theorem Extends.trans {memo memo' memo'' : List ((Pc4BagState × Nat) × Nat)}
    (h : Extends memo memo') (h' : Extends memo' memo'') : Extends memo memo'' :=
  ⟨fun _ hmem => h'.subset (h.subset hmem), fun hok => h'.ok (h.ok hok)⟩

section

variable {budgets : Pc4BagRevealBudgets} {cancelled : Nat → Bool} {context context' : CountContext}

theorem checkPrepareGuard_memo {u : Unit}
    (h : checkPrepareGuard cancelled context = .ok (u, context')) :
    context'.suffixCounts = context.suffixCounts := by
  rw [checkPrepareGuard] at h
  split at h
  · simp at h
  · simp only [Except.ok.injEq, Prod.mk.injEq] at h
    rw [← h.2]

theorem consumeCountStep_memo {u : Unit}
    (h : consumeCountStep budgets context = .ok (u, context')) :
    context'.suffixCounts = context.suffixCounts := by
  rw [consumeCountStep] at h
  split at h
  · simp at h
  · split at h
    · simp at h
    · simp only [Except.ok.injEq, Prod.mk.injEq] at h
      rw [← h.2]

theorem drawCounting_eq_ok {batch : Pc4BagDrawBatch}
    (h : drawCounting state context = .ok (batch, context')) :
    context' = context ∧ batch.transitions = draws state := by
  rw [drawCounting] at h
  split at h
  · rename_i drawn hdrawn
    simp only [Except.ok.injEq, Prod.mk.injEq] at h
    obtain ⟨rfl, rfl⟩ := h
    exact ⟨rfl, transitions_of_draw hdrawn⟩
  · simp at h

theorem addCounts_eq_ok {total suffix sum : Nat}
    (h : addCounts total suffix context = .ok (sum, context')) :
    context' = context ∧ sum = total + suffix := by
  rw [addCounts] at h
  split at h
  · rename_i hsum
    simp only [Except.ok.injEq, Prod.mk.injEq] at h
    obtain ⟨rfl, rfl⟩ := h
    exact ⟨rfl, checkedAdd128_eq_some hsum⟩
  · simp at h

theorem insertCount_eq_ok {key : Pc4BagState × Nat} {n : Nat} {u : Unit}
    (h : insertCount budgets key n context = .ok (u, context')) :
    context'.suffixCounts = (key, n) :: context.suffixCounts := by
  rw [insertCount] at h
  split at h
  · simp at h
  · simp only [Except.ok.injEq, Prod.mk.injEq] at h
    rw [← h.2]

/-- The sum over the draws, given what counting does for each. -/
theorem foldlM_count {step : Pc4BagState → Counting Nat}
    (hstep : ∀ state (c c' : CountContext) n, step state c = .ok (n, c') →
      MemoOk c.suffixCounts → Extends c.suffixCounts c'.suffixCounts ∧
        n = (drawPaths remaining state).length ∧ Known c'.suffixCounts state remaining)
    {transitions : List Pc4BagDrawTransition} {total result : Nat}
    (h : transitions.foldlM (m := Counting) (fun total transition => do
      let suffix ← step transition.nextState
      addCounts total suffix) total context = .ok (result, context'))
    (hok : MemoOk context.suffixCounts) :
    Extends context.suffixCounts context'.suffixCounts ∧
      result = total + (transitions.map fun t => (drawPaths remaining t.nextState).length).sum ∧
      ∀ t ∈ transitions, Known context'.suffixCounts t.nextState remaining := by
  induction transitions generalizing total context with
  | nil =>
    cases h
    exact ⟨.refl _, by simp, by simp⟩
  | cons transition transitions ih =>
    rw [foldlM_cons, run_bind_eq_ok] at h
    obtain ⟨sum, c, hsum, hrest⟩ := h
    obtain ⟨suffix, c1, hsuffix, hadd⟩ := run_bind_eq_ok.mp hsum
    obtain ⟨rfl, rfl⟩ := addCounts_eq_ok hadd
    obtain ⟨hextends, rfl, hknown⟩ := hstep _ _ _ _ hsuffix hok
    obtain ⟨hextends', hresult, hknown'⟩ := ih hrest (hextends.ok hok)
    refine ⟨hextends.trans hextends', ?_, forall_mem_cons.mpr
      ⟨hknown.mono hextends'.subset, hknown'⟩⟩
    rw [hresult, map_cons, sum_cons, Nat.add_assoc]

/-- Counting counts paths, and remembers all it has seen. -/
theorem count_spec {n : Nat}
    (h : count budgets cancelled remaining state context = .ok (n, context'))
    (hok : MemoOk context.suffixCounts) :
    Extends context.suffixCounts context'.suffixCounts ∧
      n = (drawPaths remaining state).length ∧ Known context'.suffixCounts state remaining := by
  induction remaining generalizing state n context context' with
  | zero =>
    simp only [count, run_bind_eq_ok] at h
    obtain ⟨_, c, hguard, _, c1, hstep, h⟩ := h
    cases h
    rw [consumeCountStep_memo hstep, checkPrepareGuard_memo hguard]
    exact ⟨.refl _, rfl, Or.inl rfl⟩
  | succ remaining ih =>
    simp only [count, run_bind_eq_ok] at h
    obtain ⟨_, c, hguard, _, c1, hstep, seen, c2, hget, h⟩ := h
    cases hget
    have hmemo : c1.suffixCounts = context.suffixCounts := by
      rw [consumeCountStep_memo hstep, checkPrepareGuard_memo hguard]
    cases hlookup : c1.suffixCounts.lookup (state, remaining + 1) with
    | some known =>
      rw [hlookup] at h
      cases h
      rw [hmemo] at hlookup ⊢
      have hmem := mem_of_lookup_eq_some hlookup
      obtain ⟨_, -, hn, -⟩ := hok _ _ _ hmem
      exact ⟨.refl _, hn, Or.inr ⟨_, hmem⟩⟩
    | none =>
      simp only [hlookup, run_bind_eq_ok] at h
      obtain ⟨batch, c3, hdraw, _, c4, hfold, _, c5, hguard', _, _, hinsert, h⟩ := h
      cases h
      obtain ⟨rfl, hbatch⟩ := drawCounting_eq_ok hdraw
      rw [hbatch] at hfold
      obtain ⟨hextends, htotal, hchildren⟩ :=
        foldlM_count (fun _ _ _ _ hcount hok => ih hcount hok) hfold (hmemo ▸ hok)
      rw [hmemo] at hextends
      have hn : n = (drawPaths (remaining + 1) state).length := by
        rw [length_paths_succ, htotal, Nat.zero_add]
      have hfinal : context'.suffixCounts = ((state, remaining + 1), n) :: c4.suffixCounts := by
        rw [insertCount_eq_ok hinsert, checkPrepareGuard_memo hguard']
      have hsubset : c4.suffixCounts ⊆ context'.suffixCounts := by
        rw [hfinal]
        exact subset_cons_self _ _
      refine ⟨⟨fun _ hmem => hsubset (hextends.subset hmem), fun _ => ?_⟩, hn,
        Or.inr ⟨n, hfinal ▸ mem_cons_self⟩⟩
      intro state' remaining' n' hmem
      rw [hfinal, mem_cons] at hmem
      rcases hmem with hmem | hmem
      · simp only [Prod.mk.injEq] at hmem
        obtain ⟨⟨rfl, rfl⟩, rfl⟩ := hmem
        exact ⟨remaining, rfl, hn, fun t ht => (hchildren t ht).mono hsubset⟩
      · obtain ⟨fewer, hfewer, hn', hknown⟩ := hextends.ok hok _ _ _ hmem
        exact ⟨fewer, hfewer, hn', fun t ht => (hknown t ht).mono hsubset⟩

end

/-! ## Unranking -/

/-- A family as preparing leaves it. -/
structure FamilyOk (family : Pc4BagRevealFamily) : Prop where
  memo_ok : MemoOk family.suffixCounts
  known : Known family.suffixCounts family.sourceState family.hiddenDraws
  total_eq : family.totalSequences = (drawPaths family.hiddenDraws family.sourceState).length

variable {family : Pc4BagRevealFamily}

theorem familyOk_of_prepare {sourceState : Pc4BagState} {hiddenDraws : Nat}
    {budgets : Pc4BagRevealBudgets} {cancelled : Nat → Bool} {token : Nat}
    (h : preparePc4BagRevealFamily sourceState hiddenDraws budgets cancelled token = .ok family) :
    FamilyOk family ∧ family.sourceState = sourceState ∧ family.hiddenDraws = hiddenDraws := by
  simp only [preparePc4BagRevealFamily, bind_eq_ok] at h
  obtain ⟨_, -, _, -, ⟨_, c⟩, hguard, ⟨n, c1⟩, hcount, ⟨_, c2⟩, hguard', h⟩ := h
  cases h
  have hempty : MemoOk c.suffixCounts := by
    rw [checkPrepareGuard_memo hguard]
    exact fun _ _ _ hmem => absurd hmem not_mem_nil
  obtain ⟨hextends, hn, hknown⟩ := count_spec hcount hempty
  have hmemo : c2.suffixCounts = c1.suffixCounts := checkPrepareGuard_memo hguard'
  exact ⟨⟨hmemo ▸ hextends.ok hempty, hmemo ▸ hknown, hn⟩, rfl, rfl⟩

theorem paths_pos (n : Nat) (state : Pc4BagState) : 0 < (drawPaths n state).length := by
  refine Nat.pos_of_ne_zero fun hzero => ?_
  have hsum : ((drawPaths n state).map fun path => (path.map drawProbability).prod).sum = 1 :=
    sum_paths draws _ sum_drawProbability n state
  rw [length_eq_zero_iff.mp hzero] at hsum
  simp at hsum

section

variable {family : Pc4BagRevealFamily} {cancelled : Nat → Bool} {work work' : PageWork}

theorem orFailPage_eq_ok {α : Type} {e : Pc4BagRevealPageError} {o : Option α} {a : α}
    (h : orFailPage e o work = .ok (a, work')) : o = some a := by
  cases o with
  | none => exact absurd h (by simp [orFailPage, failPage])
  | some b =>
    simp only [orFailPage, pure, StateT.pure, Except.pure, Except.ok.injEq, Prod.mk.injEq] at h
    rw [h.1]

theorem suffixCount_eq_ok (hfamily : FamilyOk family) {remaining n : Nat}
    (hknown : Known family.suffixCounts state remaining)
    (h : family.suffixCount state remaining work = .ok (n, work')) :
    n = (drawPaths remaining state).length := by
  cases remaining with
  | zero =>
    cases h
    rfl
  | succ remaining =>
    rw [suffixCount] at h
    have hlookup := orFailPage_eq_ok h
    rw [lookup_of_known hfamily.memo_ok hknown] at hlookup
    exact (Option.some.inj hlookup).symm

/-- The selected draw is the one the path of that rank starts with. -/
theorem selectTransition_eq_ok (hfamily : FamilyOk family) {remaining residual rest : Nat}
    {transitions : List Pc4BagDrawTransition} {selected : Pc4BagDrawTransition}
    (hknown : ∀ t ∈ transitions, Known family.suffixCounts t.nextState remaining)
    (h : family.selectTransition remaining transitions residual work =
      .ok ((selected, rest), work')) :
    selected ∈ transitions ∧ rest < (drawPaths remaining selected.nextState).length ∧
      (transitions.flatMap fun t => (drawPaths remaining t.nextState).map (t :: ·))[residual]? =
        ((drawPaths remaining selected.nextState)[rest]?).map (selected :: ·) := by
  induction transitions generalizing residual work with
  | nil => exact absurd h (by simp [selectTransition, failPage])
  | cons transition transitions ih =>
    obtain ⟨hhead, htail⟩ := forall_mem_cons.mp hknown
    simp only [selectTransition, run_bind_eq_ok] at h
    obtain ⟨_, w, -, n, w1, hcount, h⟩ := h
    have hn := suffixCount_eq_ok hfamily hhead hcount
    rw [getElem?_flatMap_cons, length_map, ← hn]
    by_cases hlt : residual < n
    · rw [if_pos hlt] at h ⊢
      cases h
      exact ⟨mem_cons_self, hn ▸ hlt, getElem?_map⟩
    · rw [if_neg hlt] at h ⊢
      obtain ⟨hmem, hrest, hget⟩ := ih htail h
      exact ⟨mem_cons_of_mem _ hmem, hrest, hget⟩

/-- A sequence is that of a path: its pieces, its exact probability in lowest terms, its end. -/
structure Follows (state : Pc4BagState) (path : List Pc4BagDrawTransition)
    (sequence : Pc4BagRevealSequence) : Prop where
  pieces : sequence.pieces = path.map piece
  canonical : Canonical sequence.probability
  value_eq : value sequence.probability = (path.map drawProbability).prod
  terminal : sequence.terminalState = pathEnd nextState state path

/-- The loop goes down the path of the given rank. -/
theorem sequenceLoop_eq_ok (hfamily : FamilyOk family) {rank remaining residual : Nat}
    {pieces : List PieceKind} {probability : Pc4ExactProbability} {sequence : Pc4BagRevealSequence}
    (hknown : Known family.suffixCounts state remaining)
    (hresidual : residual < (drawPaths remaining state).length) (hcanonical : Canonical probability)
    (h : family.sequenceLoop cancelled rank remaining state residual pieces probability work =
      .ok (sequence, work')) :
    sequence.rank = rank ∧ ∃ path, (drawPaths remaining state)[residual]? = some path ∧
      sequence.pieces = pieces ++ path.map piece ∧
      Canonical sequence.probability ∧
      value sequence.probability = value probability * (path.map drawProbability).prod ∧
      sequence.terminalState = pathEnd nextState state path := by
  induction remaining generalizing state residual pieces probability work with
  | zero =>
    cases h
    obtain rfl : residual = 0 := Nat.lt_one_iff.mp hresidual
    exact ⟨rfl, [], rfl, by simp, hcanonical, by simp, rfl⟩
  | succ remaining ih =>
    simp only [sequenceLoop, run_bind_eq_ok] at h
    obtain ⟨_, w, -, batch, w1, hdraw, ⟨selected, rest⟩, w2, hselect, product, w3, hproduct, h⟩ := h
    have hbatch : batch.transitions = draws state := by
      rw [drawPaging] at hdraw
      split at hdraw
      · rename_i drawn hdrawn
        simp only [Except.ok.injEq, Prod.mk.injEq] at hdraw
        exact hdraw.1 ▸ transitions_of_draw hdrawn
      · simp at hdraw
    have hchildren : ∀ t ∈ draws state, Known family.suffixCounts t.nextState remaining := by
      obtain habs | ⟨n, hn⟩ := hknown
      · exact absurd habs (Nat.succ_ne_zero remaining)
      · obtain ⟨fewer, hfewer, -, hchildren⟩ := hfamily.memo_ok _ _ _ hn
        obtain rfl := Nat.succ.inj hfewer
        exact hchildren
    rw [hbatch] at hselect
    obtain ⟨hmem, hrest, hget⟩ := selectTransition_eq_ok hfamily hchildren hselect
    have hpositive : 0 < selected.weight.denominator := by
      obtain ⟨piece, hne, rfl⟩ := mem_draws.mp hmem
      exact filled_pos state
    obtain ⟨hcanonical', hvalue⟩ :=
      multiply_spec hcanonical hpositive (orFailPage_eq_ok hproduct)
    obtain ⟨hrank, path, hpath, hpieces, hlast, hvalue', hterminal⟩ :=
      ih (hchildren selected hmem) hrest hcanonical' h
    refine ⟨hrank, selected :: path, ?_, ?_, hlast, ?_, hterminal⟩
    · exact hget.trans (by rw [hpath]; rfl)
    · rw [hpieces, append_assoc]
      rfl
    · rw [hvalue', hvalue, map_cons, prod_cons, mul_assoc]
      rfl

/-- The sequence of a rank. -/
def RevealedAt (family : Pc4BagRevealFamily) (rank : Nat) (sequence : Pc4BagRevealSequence) : Prop :=
  sequence.rank = rank ∧
    ∃ path, (drawPaths family.hiddenDraws family.sourceState)[rank]? = some path ∧
      Follows family.sourceState path sequence

theorem pageLoop_eq_ok (hfamily : FamilyOk family) {pageLength nextRank : Nat}
    {page : List Pc4BagRevealSequence} (hrank : nextRank + pageLength ≤ family.totalSequences)
    (h : family.pageLoop cancelled pageLength nextRank work = .ok (page, work')) :
    List.Forall₂ (RevealedAt family) (List.range' nextRank pageLength) page := by
  induction pageLength generalizing nextRank page work work' with
  | zero =>
    cases h
    exact .nil
  | succ pageLength ih =>
    simp only [pageLoop, run_bind_eq_ok] at h
    obtain ⟨_, w, -, sequence, w1, hsequence, rest, w2, hrest, h⟩ := h
    cases h
    rw [range'_succ]
    refine .cons ?_ (ih (by omega) hrest)
    obtain ⟨hsame, path, hpath, hpieces, hcanonical, hvalue, hterminal⟩ :=
      sequenceLoop_eq_ok hfamily hfamily.known (by rw [← hfamily.total_eq]; omega) canonical_one
        hsequence
    rw [value_one, one_mul] at hvalue
    exact ⟨hsame, path, hpath, hpieces, hcanonical, hvalue, hterminal⟩

/-! ## Pages -/

/-- A cursor as paging leaves it. -/
structure CursorOk (family : Pc4BagRevealFamily) (cursor : Pc4BagRevealCursor) : Prop where
  rank_le : cursor.nextRank ≤ family.totalSequences
  exhausted_iff : cursor.exhausted = true ↔ cursor.nextRank = family.totalSequences

theorem cursorOk_initial (hfamily : FamilyOk family) : CursorOk family family.cursor := by
  have hpos := paths_pos family.hiddenDraws family.sourceState
  rw [← hfamily.total_eq] at hpos
  refine ⟨Nat.zero_le _, ?_⟩
  simp only [cursor, Bool.false_eq_true, false_iff]
  exact hpos.ne

/-- A page has as many sequences as were asked for, or as are left, and the cursor moves past them. -/
theorem nextPage_eq_ok (hfamily : FamilyOk family) {cursor cursor' : Pc4BagRevealCursor} {limit : Nat}
    {page : List Pc4BagRevealSequence} (hcursor : CursorOk family cursor)
    (h : family.nextPage cancelled cursor limit = .ok (page, cursor')) :
    CursorOk family cursor' ∧
      cursor'.nextRank = cursor.nextRank + min limit (family.totalSequences - cursor.nextRank) ∧
      List.Forall₂ (RevealedAt family)
        (List.range' cursor.nextRank (min limit (family.totalSequences - cursor.nextRank))) page := by
  simp only [nextPage, bind_eq_ok] at h
  obtain ⟨_, -, _, -, ⟨_, w⟩, -, h⟩ := h
  dsimp only at h
  split at h
  · rename_i hexhausted
    cases h
    rw [hcursor.exhausted_iff.mp hexhausted, Nat.sub_self, Nat.min_zero]
    exact ⟨hcursor, rfl, .nil⟩
  · simp only [bind_eq_ok] at h
    obtain ⟨_, -, _, -, ⟨page', w1⟩, hpage, ⟨_, w2⟩, -, h⟩ := h
    cases h
    have hle := hcursor.rank_le
    rw [Nat.min_comm] at hpage ⊢
    exact ⟨⟨by dsimp only; omega, by simp⟩, rfl, pageLoop_eq_ok hfamily (by omega) hpage⟩

/-- The pages of successful calls, one after another, with these limits and any guards; a limit is a
    `NonZeroUsize`. -/
inductive Pages (family : Pc4BagRevealFamily) :
    Pc4BagRevealCursor → List Nat → List Pc4BagRevealSequence → Pc4BagRevealCursor → Prop
  | done (cursor : Pc4BagRevealCursor) : Pages family cursor [] [] cursor
  | page {cursor cursor' last : Pc4BagRevealCursor} {limits : List Nat}
      {page rest : List Pc4BagRevealSequence} (cancelled : Nat → Bool) (limit : Nat)
      (hlimit : 0 < limit) (h : family.nextPage cancelled cursor limit = .ok (page, cursor'))
      (hrest : Pages family cursor' limits rest last) :
      Pages family cursor (limit :: limits) (page ++ rest) last

/-- The pages go on as far as their limits reach. -/
theorem Pages.revealed (hfamily : FamilyOk family) {cursor last : Pc4BagRevealCursor}
    {limits : List Nat} {sequences : List Pc4BagRevealSequence}
    (h : Pages family cursor limits sequences last) (hcursor : CursorOk family cursor) :
    CursorOk family last ∧
      last.nextRank = cursor.nextRank + min limits.sum (family.totalSequences - cursor.nextRank) ∧
      List.Forall₂ (RevealedAt family) (List.range' cursor.nextRank
        (min limits.sum (family.totalSequences - cursor.nextRank))) sequences := by
  induction h with
  | done cursor => exact ⟨hcursor, by simp, by simp⟩
  | @page cursor cursor' _ limits _ _ cancelled limit hlimit h _ ih =>
    obtain ⟨hnext, hrank, hpage⟩ := nextPage_eq_ok hfamily hcursor h
    obtain ⟨hlast, hrank', hrest⟩ := ih hnext
    have hsplit : min (limit + limits.sum) (family.totalSequences - cursor.nextRank) =
        min limit (family.totalSequences - cursor.nextRank) +
          min limits.sum (family.totalSequences - cursor'.nextRank) := by omega
    rw [sum_cons, hsplit]
    refine ⟨hlast, by omega, ?_⟩
    rw [← range'_append_1, ← hrank]
    exact rel_append hpage hrest

theorem Pages.limits_pos {cursor last : Pc4BagRevealCursor} {limits : List Nat}
    {sequences : List Pc4BagRevealSequence} (h : Pages family cursor limits sequences last) :
    ∀ limit ∈ limits, 0 < limit := by
  induction h with
  | done => simp
  | page cancelled limit hlimit _ _ ih => exact forall_mem_cons.mpr ⟨hlimit, ih⟩

/-- How far pages of these limits have come: as many sequences as asked for, or all; so there are no more
    pages than sequences before the cursor is exhausted. -/
structure PagedTo (total : Nat) (limits : List Nat) (revealed nextRank : Nat) (exhausted : Bool) :
    Prop where
  revealed_eq : revealed = min limits.sum total
  nextRank_eq : nextRank = revealed
  exhausted_iff : exhausted = true ↔ total ≤ limits.sum
  exhausted_of_length : total ≤ limits.length → exhausted = true

theorem Pages.pagedTo (hfamily : FamilyOk family) {limits : List Nat} {last : Pc4BagRevealCursor}
    {sequences : List Pc4BagRevealSequence} (h : Pages family family.cursor limits sequences last) :
    PagedTo family.totalSequences limits sequences.length last.nextRank last.exhausted := by
  obtain ⟨hlast, hrank, hrevealed⟩ := h.revealed hfamily (cursorOk_initial hfamily)
  have hlength := hrevealed.length_eq
  rw [length_range'] at hlength
  change last.nextRank = 0 + min limits.sum (family.totalSequences - 0) at hrank
  change min limits.sum (family.totalSequences - 0) = _ at hlength
  have hexhausted : last.exhausted = true ↔ family.totalSequences ≤ limits.sum := by
    rw [hlast.exhausted_iff]
    omega
  refine ⟨by omega, by omega, hexhausted, fun hpages => hexhausted.mpr ?_⟩
  exact hpages.trans (length_le_sum_of_one_le _ h.limits_pos)

end

/-- The sequences of draws, each once, in lexicographic order, with its rank, its probability in
    lowest terms and the bag it leaves. -/
structure ListsDraws (source : Pc4BagState) (hiddenDraws : Nat)
    (sequences : List Pc4BagRevealSequence) : Prop where
  ranks : sequences.map Pc4BagRevealSequence.rank = List.range sequences.length
  increasing : (sequences.map Pc4BagRevealSequence.pieces).Pairwise (· < ·)
  drawn : ∀ sequence ∈ sequences, sequence.pieces.length = hiddenDraws ∧
    Canonical sequence.probability ∧
    Drawn source sequence.pieces (value sequence.probability) sequence.terminalState
  complete : ∀ pieces q last, pieces.length = hiddenDraws → Drawn source pieces q last →
    ∃ sequence ∈ sequences, sequence.pieces = pieces

variable {sequences : List Pc4BagRevealSequence}

/-- Going through the ranks is going through the paths. -/
theorem forall₂_follows (hfamily : FamilyOk family)
    (h : List.Forall₂ (RevealedAt family) (List.range family.totalSequences) sequences) :
    List.Forall₂ (Follows family.sourceState) (drawPaths family.hiddenDraws family.sourceState)
      sequences := by
  rw [hfamily.total_eq, List.forall₂_iff_get] at h
  obtain ⟨hlength, hget⟩ := h
  rw [length_range] at hlength
  refine List.forall₂_iff_get.mpr ⟨hlength, fun i hi hi' => ?_⟩
  obtain ⟨-, path, hpath, hfollows⟩ := hget i (by rwa [length_range]) hi'
  rw [get_eq_getElem, getElem_range, getElem?_eq_getElem hi] at hpath
  rw [get_eq_getElem, Option.some.inj hpath]
  exact hfollows

theorem listsDraws_of_revealed (hfamily : FamilyOk family)
    (h : List.Forall₂ (RevealedAt family) (List.range family.totalSequences) sequences) :
    ListsDraws family.sourceState family.hiddenDraws sequences := by
  have hfollows := forall₂_follows hfamily h
  have hranks : List.range family.totalSequences = sequences.map Pc4BagRevealSequence.rank :=
    List.forall₂_eq_eq_eq ▸ List.forall₂_map_right_iff.mpr (h.imp fun _ _ hrank => hrank.1.symm)
  have hpieces : (drawPaths family.hiddenDraws family.sourceState).map
      (List.map piece) = sequences.map Pc4BagRevealSequence.pieces :=
    List.forall₂_eq_eq_eq ▸ List.forall₂_map_left_iff.mpr (List.forall₂_map_right_iff.mpr
      (hfollows.imp fun _ _ hfollow => hfollow.pieces.symm))
  have hmem : ∀ sequence ∈ sequences, ∃ path ∈ drawPaths family.hiddenDraws family.sourceState,
      Follows family.sourceState path sequence := by
    intro sequence hsequence
    obtain ⟨i, hi, rfl⟩ := getElem_of_mem hsequence
    have hi' : i < (drawPaths family.hiddenDraws family.sourceState).length := by
      rwa [hfollows.length_eq]
    exact ⟨_, getElem_mem hi', hfollows.get hi' hi⟩
  refine ⟨?_, ?_, ?_, ?_⟩
  · rw [← hranks, ← h.length_eq, length_range]
  · rw [← hpieces, pairwise_map]
    exact pairwise_paths draws _ draws_increasing _ _
  · intro sequence hsequence
    obtain ⟨path, hpath, hfollow⟩ := hmem sequence hsequence
    obtain ⟨hlength, hispath⟩ := (mem_paths _ _).mp hpath
    refine ⟨by rw [hfollow.pieces, length_map, hlength], hfollow.canonical, ?_⟩
    rw [hfollow.pieces, hfollow.value_eq, hfollow.terminal]
    exact drawn_of_isPath hispath
  · intro pieces q last hlength hdrawn
    obtain ⟨path, rfl, hispath⟩ := exists_path_of_drawn hdrawn
    rw [length_map] at hlength
    have hpath := mem_map_of_mem (f := List.map piece)
      ((mem_paths draws nextState).mpr ⟨hlength, hispath⟩)
    rw [hpieces] at hpath
    exact mem_map.mp hpath

/-- The pages of a family, from its first to the last. -/
theorem Pages.listsDraws (hfamily : FamilyOk family) {limits : List Nat} {last : Pc4BagRevealCursor}
    (h : Pages family family.cursor limits sequences last) (hexhausted : last.exhausted = true) :
    ListsDraws family.sourceState family.hiddenDraws sequences := by
  obtain ⟨-, -, hrevealed⟩ := h.revealed hfamily (cursorOk_initial hfamily)
  have hall := (h.pagedTo hfamily).exhausted_iff.mp hexhausted
  change List.Forall₂ _ (List.range' 0 (min limits.sum family.totalSequences)) _ at hrevealed
  rw [Nat.min_eq_right hall, ← range_eq_range'] at hrevealed
  exact listsDraws_of_revealed hfamily hrevealed

end Clearra.Proof.Tablebase
