import Clearra.Lib.Result

/-!
# Computations that may refuse and keep their state

`&mut self` with a `Result`: a refusal ends the computation, and what was done to the state before
it stays done. `Triple` is the rule of pre- and postconditions for such a computation, with one
postcondition for a result and one for a refusal; the loop and bind rules are the only places where
a proof looks inside.
-/

namespace Clearra.Lib

def Fallible (σ ε α : Type) : Type := σ → Except ε α × σ

namespace Fallible

variable {σ ε α β : Type}

instance : Monad (Fallible σ ε) where
  pure a := fun s => (.ok a, s)
  bind x f := fun s =>
    match x s with
    | (.ok a, t) => f a t
    | (.error e, t) => (.error e, t)

/-- Reading the state. -/
def read : Fallible σ ε σ := fun s => (.ok s, s)

/-- Changing the state. -/
def update (f : σ → σ) : Fallible σ ε Unit := fun s => (.ok (), f s)

/-- A step that does not touch the state. -/
def lift (x : Except ε α) : Fallible σ ε α := fun s => (x, s)

/-- `if p { return Err(e); }`. -/
def refuseIf (p : Prop) [Decidable p] (e : ε) : Fallible σ ε Unit := lift (Lib.refuseIf p e)

/-- `for a in l { f(a)?; }`. -/
def each (f : α → Fallible σ ε β) : List α → Fallible σ ε Unit
  | [] => pure ()
  | a :: l => do
    let _ ← f a
    each f l

/-- From a state with `P`, a result leaves `Q` and a refusal leaves `E`. -/
def Triple (P : σ → Prop) (x : Fallible σ ε α) (Q : α → σ → Prop) (E : σ → Prop) : Prop :=
  ∀ s, P s → match x s with
    | (.ok a, t) => Q a t
    | (.error _, t) => E t

namespace Triple

variable {P P' E : σ → Prop} {Q R : α → σ → Prop} {S : β → σ → Prop}

theorem ret {a : α} (h : ∀ s, P s → Q a s) : Triple P (pure a : Fallible σ ε α) Q E :=
  fun s hs => h s hs

variable {x : Fallible σ ε α} {f : α → Fallible σ ε β}

theorem seq (hx : Triple P x Q E) (hf : ∀ a, Triple (Q a) (f a) S E) : Triple P (x >>= f) S E := by
  intro s hs
  have h := hx s hs
  simp only [bind]
  cases hr : x s with
  | mk r t =>
    rw [hr] at h
    cases r with
    | ok a => exact hf a t h
    | error e => exact h

theorem read_state {f : σ → Fallible σ ε β} (h : ∀ s, P s → Triple (fun t => t = s) (f s) S E) :
    Triple P (read >>= f) S E :=
  fun s hs => h s hs s rfl

theorem update_state {f : σ → σ} :
    Triple P (update f : Fallible σ ε Unit) (fun _ t => ∃ s, P s ∧ t = f s) E :=
  fun s hs => ⟨s, hs, rfl⟩

theorem lift_step {x : Except ε α} (hok : ∀ a s, x = .ok a → P s → Q a s)
    (herr : ∀ s, P s → E s) : Triple P (lift x : Fallible σ ε α) Q E := by
  intro s hs
  cases x with
  | ok a => exact hok a s rfl hs
  | error e => exact herr s hs

theorem lift_seq {x : Except ε α} (herr : ∀ s, P s → E s)
    (hf : ∀ a, x = .ok a → Triple P (f a) S E) : Triple P (lift x >>= f) S E := by
  cases x with
  | ok a => exact hf a rfl
  | error e => exact herr

theorem refuseIf_seq {p : Prop} [Decidable p] {e : ε} {f : Unit → Fallible σ ε β}
    (herr : ∀ s, P s → E s) (hf : ¬p → Triple P (f ()) S E) : Triple P (refuseIf p e >>= f) S E :=
  lift_seq herr fun _ h => hf (refuseIf_eq_ok.1 h)

theorem weaken (h : Triple P x Q E) (hp : ∀ s, P' s → P s)
    (hq : ∀ a s, Q a s → R a s) : Triple P' x R E := by
  intro s hs
  have := h s (hp s hs)
  cases hr : x s with
  | mk r t =>
    rw [hr] at this
    cases r with
    | ok a => exact hq a t this
    | error e => exact this

theorem loop (l : List α) (h : ∀ a ∈ l, Triple P (f a) (fun _ s => P s) E) :
    Triple P (each f l) (fun _ s => P s) E := by
  induction l with
  | nil => exact ret fun _ hs => hs
  | cons a l ih =>
    exact seq (h a List.mem_cons_self) fun _ => ih fun b hb => h b (List.mem_cons_of_mem _ hb)

/-- What a triple says of a run that returned. -/
theorem ok (h : Triple P x Q E) {s t : σ} {a : α} (hs : P s) (hr : x s = (.ok a, t)) : Q a t := by
  have := h s hs
  rwa [hr] at this

theorem error (h : Triple P x Q E) {s t : σ} {e : ε} (hs : P s) (hr : x s = (.error e, t)) : E t := by
  have := h s hs
  rwa [hr] at this

/-- Where result and refusal leave the same thing, every run leaves it. -/
theorem snd (h : Triple P x (fun _ s => E s) E) {s : σ} (hs : P s) : E (x s).2 := by
  have := h s hs
  cases hr : x s with
  | mk r t =>
    rw [hr] at this
    cases r with
    | ok a => exact this
    | error e => exact this

end Triple
end Fallible
end Clearra.Lib
