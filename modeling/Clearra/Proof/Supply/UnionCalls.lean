import Clearra.Lib.Guarded
import Clearra.Proof.Supply.UnionAutomaton

/-!
# What `advance` and `merge` return

On states of the language no step goes wrong: a call fails where the guard says so or where the result
does not fit the limits, and for no other reason (`Stops`). If it returns, `advance` returns the next
states and `merge` the states of both, once each and in order.
-/

namespace Clearra.Proof.Supply

open Clearra.Supply Lib CompactPatternUnionLanguage
open List hiding merge
open Clearra.Supply.CompactPatternUnionLanguage (Advancing)

variable {language : CompactPatternUnionLanguage}

/-! ## Advancing -/

/-- Why a call stops, where the whole result has `size` states at a depth and takes `attempts`. -/
inductive Stops (limits : CompactPatternUnionLimits) (cancelled : Nat → Bool)
    (size attempts depth : Nat) : CompactPatternUnionError → Prop
  | cancelled {question : Nat} (h : cancelled question = true) :
      Stops limits cancelled size attempts depth .cancelled
  | frontierStates {limit attempted : Nat} (h : limits.frontierStates < size) :
      Stops limits cancelled size attempts depth (.frontierStateLimit limit attempted)
  | transitions {limit attempted : Nat} (h : limits.transitionAttempts < attempts) :
      Stops limits cancelled size attempts depth (.transitionLimit limit attempted)
  | counter (h : usizeMax < attempts ∨ usizeMax < depth) :
      Stops limits cancelled size attempts depth .counterOverflow

variable {cancelled : Nat → Bool} {goal : List PlacementState} {attempts depth : Nat}

theorem checkCancelled_yields (limits : CompactPatternUnionLimits) (size attempts depth question : Nat) :
    Yields (Stops limits cancelled size attempts depth) (fun _ => True)
      (checkCancelled (cancelled question)) := by
  rw [checkCancelled, refuseIf]
  split
  · rename_i h
    exact .cancelled h
  · trivial

/-- What is so far, and what is to come, belongs to the result. -/
structure AdvanceRoom (goal : List PlacementState) (attempts : Nat) (out : Advancing)
    (added : List PlacementState) : Prop where
  sorted : out.states.Pairwise (· < ·)
  states_mem : ∀ t ∈ out.states, t ∈ goal
  added_mem : ∀ t ∈ added, t ∈ goal
  attempts_le : out.attempts + added.length ≤ attempts

/-- Within the limits. -/
structure Fits (limits : CompactPatternUnionLimits) (size attempts : Nat) : Prop where
  size_le : size ≤ limits.frontierStates
  attempts_le : attempts ≤ limits.transitionAttempts
  counter_le : attempts ≤ usizeMax

/-- The states that were added. -/
structure Grows (limits : CompactPatternUnionLimits) (added : List PlacementState)
    (out out' : Advancing) : Prop where
  sorted : out'.states.Pairwise (· < ·)
  mem : ∀ t, t ∈ out'.states ↔ t ∈ out.states ∨ t ∈ added
  attempts_eq : out'.attempts = out.attempts + added.length
  fits : Fits limits out.states.length out.attempts → Fits limits out'.states.length out'.attempts

variable {limits : CompactPatternUnionLimits} {out : Advancing}

theorem AdvanceRoom.grows_nil (h : AdvanceRoom goal attempts out []) : Grows limits [] out out :=
  ⟨h.sorted, fun t => by simp, rfl, id⟩

variable {first rest : List PlacementState}

theorem AdvanceRoom.left (h : AdvanceRoom goal attempts out (first ++ rest)) :
    AdvanceRoom goal attempts out first := by
  refine ⟨h.sorted, h.states_mem, fun t ht => h.added_mem t (mem_append_left rest ht), ?_⟩
  have hle := h.attempts_le
  rw [length_append] at hle
  omega

theorem AdvanceRoom.right {out out' : Advancing} (h : AdvanceRoom goal attempts out (first ++ rest))
    (hfirst : Grows limits first out out') : AdvanceRoom goal attempts out' rest := by
  have hle := h.attempts_le
  rw [length_append] at hle
  refine ⟨hfirst.sorted, ?_, fun t ht => h.added_mem t (mem_append_right first ht), ?_⟩
  · intro t ht
    rcases (hfirst.mem t).mp ht with hold | hnew
    · exact h.states_mem t hold
    · exact h.added_mem t (mem_append_left rest hnew)
  · rw [hfirst.attempts_eq]
    omega

theorem Grows.trans {out out' out'' : Advancing} (hfirst : Grows limits first out out')
    (hrest : Grows limits rest out' out'') : Grows limits (first ++ rest) out out'' := by
  refine ⟨hrest.sorted, fun t => ?_, ?_, fun h => hrest.fits (hfirst.fits h)⟩
  · rw [hrest.mem, hfirst.mem, mem_append, or_assoc]
  · rw [hrest.attempts_eq, hfirst.attempts_eq, length_append, Nat.add_assoc]

theorem length_le_of_subset {l m : List PlacementState} (hl : l.Pairwise (· < ·))
    (h : ∀ t ∈ l, t ∈ m) : l.length ≤ m.length :=
  (subperm_of_subset (hl.imp ne_of_lt) h).length_le

theorem pairwise_orderedInsert {states : List PlacementState} (h : states.Pairwise (· < ·))
    {state : PlacementState} (hstate : state ∉ states) :
    (states.orderedInsert (· ≤ ·) state).Pairwise (· < ·) := by
  have hle : (states.orderedInsert (· ≤ ·) state).Pairwise (· ≤ ·) :=
    (h.imp le_of_lt).orderedInsert state states
  have hne : (states.orderedInsert (· ≤ ·) state).Nodup :=
    (perm_orderedInsert (· ≤ ·) state states).nodup_iff.mpr
      (nodup_cons.mpr ⟨hstate, h.imp ne_of_lt⟩)
  exact (hle.and hne).imp fun hab => lt_of_le_of_ne hab.1 hab.2

theorem appendStep_yields {execution : SupplyExecutionState} {kind : SupplyBranchKind}
    {current : PieceKind} {next : Option PieceKind} {step : SupplyExecutionStep}
    {state : PlacementState} (htransition : transition execution kind current next = .ok step)
    (hcursor : step.nextState.cursor.toNat = state.draw.consumed)
    (hheld : step.nextState.holdPiece = state.held) (hroom : AdvanceRoom goal attempts out [state]) :
    Yields (Stops language.limits cancelled goal.length attempts depth)
      (Grows language.limits [state] out)
      (language.appendStep out execution kind current next state.draw) := by
  have hattempts : out.attempts + 1 ≤ attempts := hroom.attempts_le
  rw [appendStep, refuseIf]
  split
  · exact .counter (Or.inl (by omega))
  · rename_i hcounter
    rw [ok_bind, refuseIf]
    split
    · exact .transitions (by omega)
    · rename_i htransitions
      rw [ok_bind, htransition]
      change Yields _ _ ((refuseIf (step.nextState.cursor.toNat ≠ state.draw.consumed) _) >>= _)
      rw [refuseIf_of_not (not_not_intro hcursor), ok_bind, hheld]
      dsimp only
      split
      · rename_i hmem
        refine ⟨hroom.sorted, fun t => ?_, rfl, fun hfits => ⟨hfits.size_le, ?_, ?_⟩⟩
        · rw [mem_singleton]
          exact ⟨Or.inl, fun ht => ht.elim id fun heq => heq ▸ hmem⟩
        · exact Nat.le_of_not_lt htransitions
        · exact Nat.le_of_not_lt hcounter
      · rename_i hnew
        have hnew : state ∉ out.states := hnew
        have hlength : out.states.length + 1 ≤ goal.length := by
          have hinsert := length_le_of_subset (pairwise_orderedInsert hroom.sorted hnew) (m := goal)
          rw [orderedInsert_length] at hinsert
          refine hinsert fun t ht => ?_
          rcases (mem_orderedInsert (· ≤ ·)).mp ht with rfl | hold
          · exact hroom.added_mem t mem_cons_self
          · exact hroom.states_mem t hold
        rw [refuseIf]
        split
        · exact .frontierStates (by omega)
        · rename_i hstates
          refine ⟨pairwise_orderedInsert hroom.sorted hnew, fun t => ?_, rfl, fun _ => ⟨?_, ?_, ?_⟩⟩
          · change t ∈ out.states.orderedInsert (· ≤ ·) state ↔ _
            rw [mem_orderedInsert, mem_singleton, or_comm]
          · change (out.states.orderedInsert (· ≤ ·) state).length ≤ _
            rw [orderedInsert_length]
            exact Nat.le_of_not_lt hstates
          · exact Nat.le_of_not_lt htransitions
          · exact Nat.le_of_not_lt hcounter

theorem foldlM_yields {α : Type} {f : Advancing → α → Except CompactPatternUnionError Advancing}
    {g : α → List PlacementState} (limits : CompactPatternUnionLimits)
    {allowed : CompactPatternUnionError → Prop} {l : List α}
    (h : ∀ a ∈ l, ∀ out, AdvanceRoom goal attempts out (g a) →
      Yields allowed (Grows limits (g a) out) (f out a))
    (hroom : AdvanceRoom goal attempts out (l.flatMap g)) :
    Yields allowed (Grows limits (l.flatMap g) out) (l.foldlM f out) := by
  induction l generalizing out with
  | nil => exact hroom.grows_nil
  | cons a l ih =>
    obtain ⟨hhead, htail⟩ := forall_mem_cons.mp h
    rw [foldlM_cons]
    rw [flatMap_cons] at hroom ⊢
    refine (hhead out hroom.left).bind fun next hnext => ?_
    exact (ih htail (hroom.right hnext)).weaken fun last hlast => hnext.trans hlast

theorem flatMap_zipIdx {α β : Type} (g : α → List β) (l : List α) (start : Nat) :
    (l.zipIdx start).flatMap (fun x => g x.1) = l.flatMap g := by
  rw [← flatMap_map, zipIdx_map_fst]

section Advance

variable (h : ∀ atom ∈ language.atoms, Drawable atom) (hpieces : language.sequencePieces ≤ 65535)

variable {s : PlacementState}

theorem slotAt_execution (hpieces : language.sequencePieces ≤ 65535)
    (hs : PlacementSound language s) :
    SlotAt (language.execution s) language.initial.holdPolicy s.draw.consumed s.held := by
  have hconsumed := hs.consumed_le
  refine ⟨rfl, ?_, rfl, rfl⟩
  exact Nat.mod_eq_of_lt (show s.draw.consumed < 2 ^ 16 by omega)

include h hpieces

section

variable (hs : PlacementSound language s)
include hs

theorem current_yields {current : PieceKind}
    (hpolicy : language.initial.holdPolicy ≠ .required) {d : DrawState}
    (hdraw : language.draw s.draw current = some d)
    (hroom : AdvanceRoom goal attempts out [⟨d, s.held⟩]) :
    Yields (Stops language.limits cancelled goal.length attempts depth)
      (Grows language.limits [⟨d, s.held⟩] out)
      (language.appendStep out (language.execution s) .current current none d) := by
  have hslot := slotAt_execution hpieces hs
  have hdraws := draws_of_draw h hs.draw hdraw
  have hlt := hdraws.consumed_lt
  obtain ⟨cursor, hadvance, hcursor⟩ := exists_checkedAdvance (c := (language.execution s).cursor)
    (k := 1) (by rw [hslot.cursor_eq]; change s.draw.consumed + 1 < _; omega)
  refine appendStep_yields (by rw [hslot.transition_current hpolicy hs.free, hadvance]; rfl) ?_ rfl hroom
  change cursor.toNat = d.consumed
  rw [hcursor, hslot.cursor_eq, hdraws.consumed_eq]
  rfl

variable {desired current : PieceKind}

theorem swapHeld_yields (hpolicy : language.initial.holdPolicy ≠ .forbidden) (hheld : s.held = some desired)
    {d : DrawState} (hdraw : language.draw s.draw current = some d)
    (hroom : AdvanceRoom goal attempts out [⟨d, some current⟩]) :
    Yields (Stops language.limits cancelled goal.length attempts depth)
      (Grows language.limits [⟨d, some current⟩] out)
      (language.appendStep out (language.execution s) .swapHeld current none d) := by
  have hslot := slotAt_execution hpieces hs
  have hdraws := draws_of_draw h hs.draw hdraw
  have hlt := hdraws.consumed_lt
  obtain ⟨cursor, hadvance, hcursor⟩ := exists_checkedAdvance (c := (language.execution s).cursor)
    (k := 1) (by rw [hslot.cursor_eq]; change s.draw.consumed + 1 < _; omega)
  rw [hheld] at hslot
  refine appendStep_yields (by rw [hslot.transition_swapHeld hpolicy, hadvance]; rfl) ?_ rfl hroom
  change cursor.toNat = d.consumed
  rw [hcursor, hslot.cursor_eq, hdraws.consumed_eq]
  rfl

theorem storeCurrent_yields (hpolicy : language.initial.holdPolicy ≠ .forbidden) (hheld : s.held = none) {d d' : DrawState}
    (hdraw : language.draw s.draw current = some d) (hnext : language.draw d desired = some d')
    (hroom : AdvanceRoom goal attempts out [⟨d', some current⟩]) :
    Yields (Stops language.limits cancelled goal.length attempts depth)
      (Grows language.limits [⟨d', some current⟩] out)
      (language.appendStep out (language.execution s) .storeCurrent current (some desired) d') := by
  have hslot := slotAt_execution hpieces hs
  have hdraws := draws_of_draw h hs.draw hdraw
  have hdraws' := draws_of_draw h hdraws.sound hnext
  have hlt := hdraws'.consumed_lt
  have heq := hdraws.consumed_eq
  obtain ⟨cursor, hadvance, hcursor⟩ := exists_checkedAdvance (c := (language.execution s).cursor)
    (k := 2) (by rw [hslot.cursor_eq]; change s.draw.consumed + 2 < _; omega)
  rw [hheld] at hslot
  refine appendStep_yields (by rw [hslot.transition_storeCurrent hpolicy, hadvance]; rfl) ?_ rfl hroom
  change cursor.toNat = d'.consumed
  rw [hcursor, hslot.cursor_eq, hdraws'.consumed_eq, heq]
  rfl

theorem advancePiece_yields (hroom : AdvanceRoom goal attempts out (pieceSuccessors language s desired current)) :
    Yields (Stops language.limits cancelled goal.length attempts depth)
      (Grows language.limits (pieceSuccessors language s desired current) out)
      (language.advancePiece s desired out current) := by
  rw [advancePiece]
  unfold pieceSuccessors at hroom ⊢
  cases hcurrent : language.draw s.draw current with
  | none =>
    simp only [hcurrent] at hroom ⊢
    exact hroom.grows_nil
  | some afterCurrent =>
    simp only [hcurrent] at hroom ⊢
    have hfirst : Yields (Stops language.limits cancelled goal.length attempts depth)
        (Grows language.limits (if current = desired ∧ language.initial.holdPolicy ≠ .required then
          [⟨afterCurrent, s.held⟩] else []) out)
        (language.advanceCurrent s desired out current afterCurrent) := by
      have hleft := hroom.left
      change Yields _ _ (if current = desired ∧ language.initial.holdPolicy ≠ .required then _
        else _)
      split
      · rename_i hdesired
        rw [if_pos hdesired] at hleft
        exact current_yields h hpieces hs hdesired.2 hcurrent hleft
      · rename_i hdesired
        rw [if_neg hdesired] at hleft
        exact hleft.grows_nil
    refine hfirst.bind fun next hnext => ?_
    have hright := hroom.right hnext
    refine Yields.weaken ?_ fun last hlast => hnext.trans hlast
    change Yields _ _ (if language.initial.holdPolicy = .forbidden then _ else _)
    split
    · rename_i hpolicy
      rw [if_pos hpolicy] at hright
      exact hright.grows_nil
    · rename_i hpolicy
      rw [if_neg hpolicy] at hright
      split
      · rename_i hheld
        rw [if_pos hheld] at hright
        exact swapHeld_yields h hpieces hs hpolicy hheld hcurrent hright
      · rename_i hother
        rw [if_neg hother] at hright
        split
        · rename_i hheld
          rw [if_pos hheld] at hright
          cases hafter : language.draw afterCurrent desired with
          | none =>
            rw [hafter] at hright
            exact hright.grows_nil
          | some afterNext =>
            rw [hafter] at hright
            exact storeCurrent_yields h hpieces hs hpolicy hheld hcurrent hafter hright
        · rename_i hheld
          rw [if_neg hheld] at hright
          exact hright.grows_nil

theorem advanceState_yields {desired : PieceKind}
    (hroom : AdvanceRoom goal attempts out (successors language desired s)) (question : Nat) :
    Yields (Stops language.limits cancelled goal.length attempts depth)
      (Grows language.limits (successors language desired s) out)
      (language.advanceState cancelled desired out s question) := by
  rw [advanceState]
  refine (checkCancelled_yields _ _ _ _ _).bind fun _ _ => ?_
  rw [guardedFold]
  rw [successors, ← flatMap_zipIdx _ _ (question + 1)] at hroom ⊢
  refine foldlM_yields language.limits (fun piece _ out hout => ?_) hroom
  exact (checkCancelled_yields _ _ _ _ _).bind fun _ _ => advancePiece_yields h hpieces hs hout

end

/-- The states a frontier leads to, each as often as it is tried. -/
def tried (language : CompactPatternUnionLanguage) (desired : PieceKind) (states : List PlacementState) :
    List PlacementState :=
  states.flatMap (successors language desired)

/-- A call goes wrong at a limit or where it is cancelled; else it gives the next states, once each and
    in order. -/
theorem advance_yields {frontier : CompactPatternUnionFrontier} (howner : frontier.owner = language.owner)
    (hstates : ∀ s ∈ frontier.states, PlacementSound language s) (desired : PieceKind) :
    Yields
      (Stops language.limits cancelled (sortDedup (tried language desired frontier.states)).length
        (tried language desired frontier.states).length (frontier.placedPieces + 1))
      (fun next => next = ⟨language.owner, sortDedup (tried language desired frontier.states),
          frontier.placedPieces + 1⟩ ∧ frontier.placedPieces + 1 ≤ usizeMax ∧
        Fits language.limits (sortDedup (tried language desired frontier.states)).length
          (tried language desired frontier.states).length)
      (language.advance cancelled frontier desired) := by
  rw [advance]
  refine (checkCancelled_yields _ _ _ _ _).bind fun _ _ => ?_
  rw [refuseIf_of_not (by rw [howner]; simp), ok_bind, checkedCount]
  split
  · rename_i hdepth
    rw [ok_bind]
    have hroom : AdvanceRoom (sortDedup (tried language desired frontier.states))
        (tried language desired frontier.states).length ⟨[], 0⟩
        (frontier.states.zipIdx.flatMap fun s => successors language desired s.1) := by
      rw [flatMap_zipIdx]
      exact ⟨.nil, fun t ht => absurd ht not_mem_nil, fun t ht => mem_sortDedup.mpr ht,
        (Nat.zero_add _).le⟩
    refine (foldlM_yields language.limits (fun s hs out hout => ?_) hroom).bind fun out hout => ?_
    · obtain ⟨s, index⟩ := s
      exact advanceState_yields h hpieces (hstates s (fst_mem_of_mem_zipIdx hs)) hout _
    · refine (checkCancelled_yields _ _ _ _ _).bind fun _ _ => ?_
      rw [flatMap_zipIdx] at hout
      have hsorted : out.states = sortDedup (tried language desired frontier.states) := by
        refine eq_of_pairwise_lt_of_mem_iff hout.sorted (pairwise_lt_sortDedup _) fun t => ?_
        rw [hout.mem, mem_sortDedup, tried]
        simp
      have hattempts : out.attempts = (tried language desired frontier.states).length :=
        hout.attempts_eq.trans (Nat.zero_add _)
      have hfits := hout.fits ⟨Nat.zero_le _, Nat.zero_le _, Nat.zero_le _⟩
      rw [hsorted, hattempts] at hfits
      exact ⟨by rw [hsorted], hdepth, hfits⟩
  · rename_i hdepth
    exact .counter (Or.inr (Nat.lt_of_not_le hdepth))

end Advance

/-! ## Merging -/

/-- What the loop of `merge` keeps: the states so far are before those to come. -/
structure Merging (goal states left right : List PlacementState) : Prop where
  left_sorted : (states ++ left).Pairwise (· < ·)
  right_sorted : (states ++ right).Pairwise (· < ·)
  goal_mem : ∀ t, t ∈ states ∨ t ∈ left ∨ t ∈ right → t ∈ goal

section Merging

variable {states left right : List PlacementState} {a : PlacementState}

theorem Merging.symm (h : Merging goal states left right) : Merging goal states right left :=
  ⟨h.right_sorted, h.left_sorted, fun t ht => h.goal_mem t (ht.imp_right Or.symm)⟩

theorem Merging.takeBoth (h : Merging goal states (a :: left) (a :: right)) :
    Merging goal (states ++ [a]) left right := by
  refine ⟨?_, ?_, fun t ht => h.goal_mem t ?_⟩
  · rw [append_assoc]
    exact h.left_sorted
  · rw [append_assoc]
    exact h.right_sorted
  · simp only [mem_append, mem_cons, not_mem_nil] at ht ⊢
    tauto

/-- An item that comes before the whole other side. -/
theorem Merging.takeLeft (h : Merging goal states (a :: left) right) (hright : ∀ t ∈ right, a < t) :
    Merging goal (states ++ [a]) left right := by
  obtain ⟨hstates, -, hbefore⟩ := pairwise_append.mp h.left_sorted
  obtain ⟨-, hsorted, hbefore'⟩ := pairwise_append.mp h.right_sorted
  have hboth : (states ++ a :: right).Pairwise (· < ·) := by
    refine pairwise_append.mpr ⟨hstates, pairwise_cons.mpr ⟨hright, hsorted⟩, ?_⟩
    intro s hs t ht
    rcases mem_cons.mp ht with rfl | ht
    · exact hbefore s hs t mem_cons_self
    · exact hbefore' s hs t ht
  have hgoal : ∀ t, t ∈ states ∨ t ∈ a :: left ∨ t ∈ a :: right → t ∈ goal := by
    intro t ht
    refine h.goal_mem t ?_
    simp only [mem_cons] at ht ⊢
    tauto
  exact Merging.takeBoth ⟨h.left_sorted, hboth, hgoal⟩

theorem Merging.lt_of_lt {b : PlacementState} (h : Merging goal states left (b :: right)) (hlt : a < b) :
    ∀ t ∈ b :: right, a < t := by
  obtain ⟨-, hsorted, -⟩ := pairwise_append.mp h.right_sorted
  intro t ht
  rcases mem_cons.mp ht with rfl | ht
  · exact hlt
  · exact hlt.trans ((pairwise_cons.mp hsorted).1 t ht)

end Merging

theorem pushMerged_yields {states left right : List PlacementState} {item : PlacementState}
    (h : Merging goal (states ++ [item]) left right) :
    Yields (Stops language.limits cancelled goal.length attempts depth)
      (fun states' => states' = states ++ [item]) (language.pushMerged states item) := by
  rw [pushMerged, refuseIf]
  split
  · rename_i hfull
    have hlength := length_le_of_subset (pairwise_append.mp h.left_sorted).1
      (fun t ht => h.goal_mem t (Or.inl ht))
    rw [length_append, length_singleton, hfull] at hlength
    exact .frontierStates hlength
  · rfl

/-- The result of the loop. -/
def Merged (states left right : List PlacementState) (out : Nat × List PlacementState) : Prop :=
  out.2.Pairwise (· < ·) ∧ ∀ t, t ∈ out.2 ↔ t ∈ states ∨ t ∈ left ∨ t ∈ right

/-- One round: an item goes over, and the rest is merged. -/
theorem round_yields {states left right left' right' : List PlacementState} {item : PlacementState}
    {rest : List PlacementState → Except CompactPatternUnionError (Nat × List PlacementState)}
    (h : Merging goal (states ++ [item]) left' right')
    (hrest : ∀ states, Merging goal states left' right' →
      Yields (Stops language.limits cancelled goal.length attempts depth)
        (Merged states left' right') (rest states))
    (hmem : ∀ t, (t = item ∨ t ∈ left' ∨ t ∈ right') ↔ t ∈ left ∨ t ∈ right) :
    Yields (Stops language.limits cancelled goal.length attempts depth) (Merged states left right)
      (language.pushMerged states item >>= rest) := by
  refine (pushMerged_yields h).bind fun states' hstates' => ?_
  subst hstates'
  refine (hrest _ h).weaken fun out hout => ⟨hout.1, fun t => ?_⟩
  rw [hout.2, mem_append, mem_singleton, or_assoc, hmem]

theorem mergeLoop_yields {question : Nat} {left right states : List PlacementState}
    (h : Merging goal states left right) :
    Yields (Stops language.limits cancelled goal.length attempts depth) (Merged states left right)
      (language.mergeLoop cancelled question left right states) := by
  fun_induction mergeLoop language cancelled question left right states with
  | case1 question states =>
    have hsorted := h.left_sorted
    rw [append_nil] at hsorted
    exact ⟨hsorted, fun t => by simp⟩
  | case2 question b right states ih =>
    refine (checkCancelled_yields _ _ _ _ _).bind fun _ _ => ?_
    refine round_yields (h.symm.takeLeft fun _ ht => absurd ht not_mem_nil).symm ih fun t => ?_
    simp only [mem_cons]
    tauto
  | case3 question a left states ih =>
    refine (checkCancelled_yields _ _ _ _ _).bind fun _ _ => ?_
    refine round_yields (h.takeLeft fun _ ht => absurd ht not_mem_nil) ih fun t => ?_
    simp only [mem_cons]
    tauto
  | case4 question a left b right states ihboth ihleft ihright =>
    refine (checkCancelled_yields _ _ _ _ _).bind fun _ _ => ?_
    split
    · rename_i heq
      subst heq
      refine round_yields h.takeBoth ihboth fun t => ?_
      simp only [mem_cons]
      tauto
    · rename_i hne
      split
      · rename_i hlt
        refine round_yields (h.takeLeft (h.lt_of_lt hlt)) ihleft fun t => ?_
        simp only [mem_cons]
        tauto
      · rename_i hge
        have hlt : b < a := lt_of_le_of_ne (not_lt.mp hge) (Ne.symm hne)
        refine round_yields (h.symm.takeLeft (h.symm.lt_of_lt hlt)).symm ihright fun t => ?_
        simp only [mem_cons]
        tauto

theorem merge_yields {left right : CompactPatternUnionFrontier} (hleft : left.owner = language.owner)
    (hright : right.owner = language.owner) (hdepth : left.placedPieces = right.placedPieces)
    (hsorted : left.states.Pairwise (· < ·)) (hsorted' : right.states.Pairwise (· < ·)) :
    Yields (Stops language.limits cancelled (sortDedup (left.states ++ right.states)).length 0 0)
      (fun merged => merged =
        ⟨language.owner, sortDedup (left.states ++ right.states), left.placedPieces⟩)
      (language.merge cancelled left right) := by
  rw [merge]
  refine (checkCancelled_yields _ _ _ _ _).bind fun _ _ => ?_
  rw [refuseIf_of_not (by rw [hleft, hright]; simp), ok_bind,
    refuseIf_of_not (not_not_intro hdepth), ok_bind]
  have hmerging : Merging (sortDedup (left.states ++ right.states)) [] left.states right.states := by
    refine ⟨hsorted, hsorted', fun t ht => ?_⟩
    rw [mem_sortDedup, mem_append]
    exact ht.resolve_left not_mem_nil
  refine (mergeLoop_yields hmerging).bind fun out hout => ?_
  obtain ⟨question, states⟩ := out
  refine (checkCancelled_yields _ _ _ _ _).bind fun _ _ => ?_
  have hstates : states = sortDedup (left.states ++ right.states) := by
    refine eq_of_pairwise_lt_of_mem_iff hout.1 (pairwise_lt_sortDedup _) fun t => ?_
    rw [mem_sortDedup, mem_append, hout.2]
    exact or_iff_right not_mem_nil
  exact congrArg (fun states => CompactPatternUnionFrontier.mk language.owner states left.placedPieces)
    hstates

end Clearra.Proof.Supply
