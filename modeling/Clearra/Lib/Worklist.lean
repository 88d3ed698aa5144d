import Mathlib

/-!
# Worklist exploration

A queue that is only ever appended to, a cursor into it, and a mark per element so that nothing is
queued twice: the loop every search of this code base is an instance of. What differs between the
instances is how the marks are stored, what is recorded at each visit and when the loop is left
early; what they share is stated here over an arbitrary successor function.

`explore` takes *fuel*. Fuel is not a bound on what is found: `explore_spec` says that as much
fuel as there are elements is always enough, and that the outcome is then the reachable set — or
a stop, exactly when some reachable element asks for one.
-/

namespace Clearra.Lib

open List

variable {α : Type} [DecidableEq α]

/-- Append unless already queued. -/
def push (queue : List α) (a : α) : List α := if a ∈ queue then queue else queue ++ [a]

def pushAll (queue : List α) (as : List α) : List α := as.foldl push queue

/-- The loop: visit the element under the cursor, leave if it is a stop, else queue its
    successors. `none` is fuel exhaustion, the flag whether a stop was met. -/
def explore (succ : α → List α) (stop : α → Bool) : Nat → Nat → List α → Option (List α × Bool)
  | fuel, cursor, queue =>
    match queue[cursor]? with
    | none => some (queue, false)
    | some a =>
      if stop a then some (queue, true)
      else
        match fuel with
        | 0 => none
        | fuel + 1 => explore succ stop fuel (cursor + 1) (pushAll queue (succ a))

/-- Reachable from some seed along `succ`. -/
def Reaches (succ : α → List α) (seeds : List α) (a : α) : Prop :=
  ∃ s ∈ seeds, Relation.ReflTransGen (fun x y => y ∈ succ x) s a

/-! ## Queue operations -/

variable {succ : α → List α} {seeds : List α}

omit [DecidableEq α] in
theorem Reaches.seed {a : α} (h : a ∈ seeds) : Reaches succ seeds a := ⟨a, h, .refl⟩

omit [DecidableEq α] in
theorem Reaches.tail {a b : α} (h : Reaches succ seeds a) (hb : b ∈ succ a) :
    Reaches succ seeds b :=
  let ⟨s, hs, hr⟩ := h
  ⟨s, hs, hr.tail hb⟩

variable {queue : List α}

@[simp] theorem mem_push {a x : α} : x ∈ push queue a ↔ x ∈ queue ∨ x = a := by
  unfold push
  split
  · rename_i h
    exact ⟨Or.inl, fun hx => hx.elim id fun e => e ▸ h⟩
  · rw [mem_append, mem_singleton]

theorem nodup_push (h : queue.Nodup) (a : α) : (push queue a).Nodup := by
  unfold push
  split
  · exact h
  · rename_i ha
    refine nodup_append.mpr ⟨h, nodup_singleton a, ?_⟩
    intro x hx y hy
    rw [mem_singleton] at hy
    subst hy
    exact fun e => ha (e ▸ hx)

theorem prefix_push (queue : List α) (a : α) : queue <+: push queue a := by
  unfold push
  split
  · exact prefix_rfl
  · exact prefix_append _ _

theorem mem_pushAll {as : List α} : ∀ {queue : List α} {x : α},
    x ∈ pushAll queue as ↔ x ∈ queue ∨ x ∈ as := by
  induction as with
  | nil => intro queue x; simp [pushAll]
  | cons a rest ih =>
    intro queue x
    rw [pushAll, foldl_cons]
    change x ∈ pushAll (push queue a) rest ↔ _
    rw [ih, mem_push, mem_cons, or_assoc]

theorem nodup_pushAll {as : List α} : ∀ {queue : List α}, queue.Nodup →
    (pushAll queue as).Nodup := by
  induction as with
  | nil => intro queue h; exact h
  | cons a rest ih => intro queue h; exact ih (nodup_push h a)

theorem prefix_pushAll (as : List α) : ∀ queue : List α, queue <+: pushAll queue as := by
  induction as with
  | nil => intro queue; exact prefix_rfl
  | cons a rest ih => intro queue; exact (prefix_push queue a).trans (ih (push queue a))

/-! ## The loop invariant -/

/-- What holds at the top of the loop: the queue has no repetitions, holds the seeds and only
    reachable elements, and the part before the cursor is done — successors queued, no stop. -/
structure ExploreInv (succ : α → List α) (stop : α → Bool) (seeds : List α) (cursor : Nat)
    (queue : List α) : Prop where
  nodup : queue.Nodup
  seeds_mem : ∀ s ∈ seeds, s ∈ queue
  reaches : ∀ a ∈ queue, Reaches succ seeds a
  closed : ∀ a ∈ queue.take cursor, ∀ b ∈ succ a, b ∈ queue
  unstopped : ∀ a ∈ queue.take cursor, stop a = false

theorem ExploreInv.init (succ : α → List α) (stop : α → Bool) (seeds : List α) :
    ExploreInv succ stop seeds 0 (pushAll [] seeds) where
  nodup := nodup_pushAll nodup_nil
  seeds_mem := fun s hs => mem_pushAll.mpr (Or.inr hs)
  reaches := by
    intro a ha
    rcases mem_pushAll.mp ha with h | h
    · exact absurd h not_mem_nil
    · exact .seed h
  closed := by intro a ha; simp at ha
  unstopped := by intro a ha; simp at ha

variable {stop : α → Bool} {cursor : Nat}

variable (inv : ExploreInv succ stop seeds cursor queue)

include inv in
theorem ExploreInv.step {a : α} (hget : queue[cursor]? = some a) (hstop : stop a = false) :
    ExploreInv succ stop seeds (cursor + 1) (pushAll queue (succ a)) := by
  have ha : a ∈ queue := mem_of_getElem? hget
  have hlt : cursor < queue.length := (List.getElem?_eq_some_iff.mp hget).1
  -- the visited part of the longer queue is the visited part of the old one, and `a`
  have htake : (pushAll queue (succ a)).take (cursor + 1) = queue.take cursor ++ [a] := by
    obtain ⟨rest, hrest⟩ := prefix_pushAll (succ a) queue
    rw [← hrest, take_append_of_le_length (by omega), take_add_one, hget]
    rfl
  refine ⟨nodup_pushAll inv.nodup, ?_, ?_, ?_, ?_⟩
  · intro s hs
    exact mem_pushAll.mpr (Or.inl (inv.seeds_mem s hs))
  · intro b hb
    rcases mem_pushAll.mp hb with h | h
    · exact inv.reaches b h
    · exact (inv.reaches a ha).tail h
  · intro b hb c hc
    rw [htake, mem_append, mem_singleton] at hb
    rcases hb with hb | rfl
    · exact mem_pushAll.mpr (Or.inl (inv.closed b hb c hc))
    · exact mem_pushAll.mpr (Or.inr hc)
  · intro b hb
    rw [htake, mem_append, mem_singleton] at hb
    rcases hb with hb | rfl
    · exact inv.unstopped b hb
    · exact hstop

include inv in
omit [DecidableEq α] in
/-- At the end of the queue nothing reachable is missing. -/
theorem ExploreInv.complete
    (hend : queue[cursor]? = none) {a : α} : a ∈ queue ↔ Reaches succ seeds a := by
  refine ⟨inv.reaches a, ?_⟩
  have hall : queue.take cursor = queue := take_of_length_le (getElem?_eq_none_iff.mp hend)
  rintro ⟨s, hs, hr⟩
  induction hr with
  | refl => exact inv.seeds_mem s hs
  | tail _ hstep ih => exact inv.closed _ (by rw [hall]; exact ih) _ hstep

include inv in
omit [DecidableEq α] in
/-- …so a loop that gets there has met no stop because there is none to meet. -/
theorem ExploreInv.no_stop
    (hend : queue[cursor]? = none) : ¬∃ a, Reaches succ seeds a ∧ stop a = true := by
  rintro ⟨a, hr, hs⟩
  have hall : queue.take cursor = queue := take_of_length_le (getElem?_eq_none_iff.mp hend)
  have hfalse := inv.unstopped a (by rw [hall]; exact (inv.complete hend).mpr hr)
  rw [hfalse] at hs
  simp at hs

/-! ## The loop -/

/-- What a finished loop has to show: whether it was stopped, and what it found if not. -/
def ExploreResult (succ : α → List α) (stop : α → Bool) (seeds : List α)
    (found : List α) (stopped : Bool) : Prop :=
  (stopped = true ↔ ∃ a, Reaches succ seeds a ∧ stop a = true) ∧
    (stopped = false → found.Nodup ∧ ∀ a, a ∈ found ↔ Reaches succ seeds a)

include inv in
omit [DecidableEq α] in
theorem ExploreInv.result
    (hend : queue[cursor]? = none) : ExploreResult succ stop seeds queue false :=
  ⟨⟨by simp, fun h => absurd h (inv.no_stop hend)⟩,
    fun _ => ⟨inv.nodup, fun _ => inv.complete hend⟩⟩

theorem explore_of_inv {seeds pool : List α} (hpool : ∀ a, Reaches succ seeds a → a ∈ pool) :
    ∀ (fuel cursor : Nat) (queue : List α), ExploreInv succ stop seeds cursor queue →
      pool.length ≤ fuel + cursor →
      ∃ found stopped, explore succ stop fuel cursor queue = some (found, stopped) ∧
        ExploreResult succ stop seeds found stopped := by
  intro fuel
  induction fuel with
  | zero =>
    intro cursor queue inv hfuel
    have hlen : queue.length ≤ pool.length :=
      (inv.nodup.subperm fun a ha => hpool a (inv.reaches a ha)).length_le
    have hend : queue[cursor]? = none := getElem?_eq_none_iff.mpr (by omega)
    refine ⟨queue, false, ?_, inv.result hend⟩
    rw [explore, hend]
  | succ fuel ih =>
    intro cursor queue inv hfuel
    cases hget : queue[cursor]? with
    | none =>
      refine ⟨queue, false, ?_, inv.result hget⟩
      rw [explore, hget]
    | some a =>
      cases hstop : stop a with
      | true =>
        refine ⟨queue, true, ?_, ?_, by simp⟩
        · rw [explore, hget]
          simp only [hstop, if_true]
        · exact ⟨fun _ => ⟨a, inv.reaches a (mem_of_getElem? hget), hstop⟩, fun _ => rfl⟩
      | false =>
        obtain ⟨found, stopped, hrun, hres⟩ :=
          ih (cursor + 1) (pushAll queue (succ a)) (inv.step hget hstop) (by omega)
        refine ⟨found, stopped, ?_, hres⟩
        rw [explore, hget]
        simp only [hstop, Bool.false_eq_true, if_false]
        exact hrun

/-- **Exploration is reachability.** With fuel for every element of a pool that contains what is
    reachable, the loop ends; it was stopped exactly when a reachable element is a stop, and
    otherwise its queue lists the reachable elements, each once. -/
theorem explore_spec (succ : α → List α) (stop : α → Bool) (seeds : List α) {pool : List α}
    (hpool : ∀ a, Reaches succ seeds a → a ∈ pool) {fuel : Nat} (hfuel : pool.length ≤ fuel) :
    ∃ found stopped, explore succ stop fuel 0 (pushAll [] seeds) = some (found, stopped) ∧
      ExploreResult succ stop seeds found stopped :=
  explore_of_inv hpool fuel 0 _ (.init succ stop seeds) (by omega)

end Clearra.Lib
