import Clearra.Supply.Automaton

/-!
# The hold slot as a machine that reads words

What `transition` does with a queue, and what the bag automaton does with a bag, is one machine:
in a slot state it takes one or two pieces from its supply, places one and leaves the slot in
another state. So the machine is written over the *word* it takes, and the two suppliers are
compared by the words they can give.

* **Conservation** (`SlotRun.conserves`): what a run placed together with what it still holds is
  what it held together with what it took.
* **Every final hold is realised** (`exists_slotRun_of_occupied`, `exists_slotRun_of_empty`): any
  piece of that pool can be the one still held, by one swap at the right moment.
-/

namespace Clearra.Proof.Supply

open Clearra.Supply List

/-- One placement: from a slot, taking a word, a piece is placed and a slot is left. -/
inductive SlotStep (policy : HoldPolicy) :
    Option PieceKind → List PieceKind → PieceKind → Option PieceKind → Prop
  | current (h : Option PieceKind) (p : PieceKind) (allowed : policy ≠ .required) :
      SlotStep policy h [p] p h
  | swapHeld (held p : PieceKind) (allowed : policy ≠ .forbidden) :
      SlotStep policy (some held) [p] held (some p)
  | storeCurrent (p q : PieceKind) (allowed : policy ≠ .forbidden) :
      SlotStep policy none [p, q] q (some p)

/-- Any number of placements; the word is what all of them took, in order. -/
inductive SlotRun (policy : HoldPolicy) :
    Option PieceKind → List PieceKind → List PieceKind → Option PieceKind → Prop
  | nil (h : Option PieceKind) : SlotRun policy h [] [] h
  | cons {h h' h'' : Option PieceKind} {word rest placed : List PieceKind} {p : PieceKind}
      (first : SlotStep policy h word p h') (run : SlotRun policy h' rest placed h'') :
      SlotRun policy h (word ++ rest) (p :: placed) h''

variable {policy : HoldPolicy} {h h' : Option PieceKind} {word placed : List PieceKind}

/-- A run goes on… -/
theorem SlotRun.snoc (run : SlotRun policy h word placed h') {h'' : Option PieceKind}
    {taken : List PieceKind} {p : PieceKind} (last : SlotStep policy h' taken p h'') :
    SlotRun policy h (word ++ taken) (placed ++ [p]) h'' := by
  induction run with
  | nil h =>
    have := SlotRun.cons last (.nil h'')
    rwa [append_nil] at this
  | cons first run ih =>
    rw [append_assoc]
    exact .cons first (ih last)

/-- …and a run that placed something has a last step. -/
theorem SlotRun.exists_last : ∀ {placed : List PieceKind} {h h'' : Option PieceKind}
    {word : List PieceKind} {p : PieceKind}, SlotRun policy h word (placed ++ [p]) h'' →
    ∃ taken rest h', word = taken ++ rest ∧ SlotRun policy h taken placed h' ∧
      SlotStep policy h' rest p h'' := by
  intro placed
  induction placed with
  | nil =>
    intro h h'' word p run
    cases run with
    | cons first run =>
      cases run with
      | nil => exact ⟨[], _, h, by simp, .nil h, first⟩
  | cons q placed ih =>
    intro h h'' word p run
    cases run with
    | @cons _ h₁ _ w _ _ _ first run =>
      obtain ⟨taken, rest, h', rfl, hrun, hlast⟩ := ih run
      exact ⟨w ++ taken, rest, h', (append_assoc ..).symm, .cons first hrun, hlast⟩

/-! ## From above -/

theorem SlotStep.conserves {p : PieceKind} (step : SlotStep policy h word p h') :
    (h.toList ++ word).Perm (h'.toList ++ [p]) := by
  cases step with
  | current => exact .refl _
  | swapHeld => exact List.Perm.swap _ _ []
  | storeCurrent => exact .refl _

theorem SlotRun.conserves (run : SlotRun policy h word placed h') :
    (h.toList ++ word).Perm (h'.toList ++ placed) := by
  induction run with
  | nil h => exact .refl _
  | @cons h h' h'' word rest placed p first run ih =>
    calc (h.toList ++ (word ++ rest)).Perm (h.toList ++ word ++ rest) := by
          rw [append_assoc]
      _ |>.Perm (h'.toList ++ [p] ++ rest) := first.conserves.append_right rest
      _ |>.Perm (p :: (h'.toList ++ rest)) := by
          rw [append_assoc]
          exact perm_middle
      _ |>.Perm (p :: (h''.toList ++ placed)) := ih.cons p
      _ |>.Perm (h''.toList ++ p :: placed) := perm_middle.symm

theorem SlotRun.isSome (run : SlotRun policy h word placed h') (hh : h.isSome) : h'.isSome := by
  induction run with
  | nil h => exact hh
  | cons first run ih =>
    refine ih ?_
    cases first with
    | current p _ => exact hh
    | swapHeld held p _ => rfl
    | storeCurrent p q _ => rfl

/-- A run takes as many pieces as it places, and one more if it fills the slot. -/
theorem SlotRun.length_eq (run : SlotRun policy h word placed h') :
    word.length + h.toList.length = placed.length + h'.toList.length := by
  have := run.conserves.length_eq
  simp only [length_append] at this
  omega

/-- With hold forbidden the slot stays as it is and the word is placed in order. -/
theorem SlotRun.of_forbidden (run : SlotRun .forbidden h word placed h') :
    h' = h ∧ placed = word := by
  induction run with
  | nil h => exact ⟨rfl, rfl⟩
  | cons first run ih =>
    cases first with
    | current p _ => exact ⟨ih.1, by rw [ih.2, singleton_append]⟩
    | swapHeld held p allowed => exact absurd rfl allowed
    | storeCurrent p q allowed => exact absurd rfl allowed

/-! ## From below -/

theorem exists_slotRun_current (hreq : policy ≠ .required) (h : Option PieceKind) :
    ∀ word : List PieceKind, SlotRun policy h word word h := by
  intro word
  induction word with
  | nil => exact .nil h
  | cons p rest ih => exact .cons (.current h p hreq) ih

/-- From an occupied slot any piece of the pool can be the one left over: swap when it is drawn,
    or never if it is the one already held. Induction on the word; the swap moves the target `y`
    into the slot as soon as the pool that still lies ahead contains it. -/
theorem exists_slotRun_of_occupied : ∀ (word : List PieceKind) {x y : PieceKind},
    y ∈ x :: word → ∃ placed, SlotRun .allowed (some x) word placed (some y) := by
  intro word
  induction word with
  | nil =>
    intro x y hy
    rw [mem_singleton.mp hy]
    exact ⟨[], .nil _⟩
  | cons p rest ih =>
    intro x y hy
    by_cases hyd : y ∈ p :: rest
    · obtain ⟨placed, run⟩ := ih hyd
      exact ⟨x :: placed, .cons (.swapHeld x p (by simp)) run⟩
    · have hyx : y = x := by
        rcases mem_cons.mp hy with h | h
        · exact h
        · exact absurd h hyd
      obtain ⟨placed, run⟩ := ih (show y ∈ x :: rest by rw [hyx]; exact mem_cons_self)
      exact ⟨p :: placed, .cons (.current _ p (by simp)) run⟩

/-- From an empty slot any piece of a word can be the one not placed. If it is the last one it
    need not even be taken — the run that never touches the slot leaves it in the supply — and
    that is why the source's `n`-draw and `n + 1`-draw options overlap. -/
theorem exists_slotRun_of_empty : ∀ (word : List PieceKind) {y : PieceKind}, y ∈ word →
    ∃ taken rest placed h', SlotRun .allowed none taken placed h' ∧ word = taken ++ rest ∧
      word.Perm (y :: placed) := by
  intro word
  induction word with
  | nil => intro y hy; exact absurd hy (not_mem_nil)
  | cons p rest ih =>
    intro y hy
    rcases mem_cons.mp hy with rfl | hyd
    · cases rest with
      | nil => exact ⟨[], [y], [], none, .nil _, rfl, .refl _⟩
      | cons q rest =>
        -- the target is next: store it, place the one after, and use the rest as it comes
        refine ⟨y :: q :: rest, [], q :: rest, some y, ?_, by simp, .refl _⟩
        exact .cons (.storeCurrent y q (by simp)) (exists_slotRun_current (by simp) _ rest)
    · obtain ⟨taken, left, placed, h', run, rfl, hperm⟩ := ih hyd
      refine ⟨p :: taken, left, p :: placed, h', .cons (.current none p (by simp)) run, rfl, ?_⟩
      exact (hperm.cons p).trans (List.Perm.swap _ _ _)

end Clearra.Proof.Supply
