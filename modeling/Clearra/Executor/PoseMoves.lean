import Clearra.Executor.Reachability

/-!
# What a falling piece may do

The game the tables of `Executor/Reachability.lean` stand for, said without tables: which poses
are free, which moves a free pose has, which poses the sky offers. Nothing here is translated from
a function of the source; it is the statement the compiled search is measured against.

The vertical extent of the pose space is a parameter. `some c` is the space cut at row `c`, as the
template cuts it; `none` is the game itself, which has no ceiling. A kick whose target is not free
*in the given space* is passed over, so cutting the space can change which kick a rotation takes.
-/

namespace Clearra.Executor

open Rules

/-- One piece over one board, under one rule set. -/
structure Arena where
  width : Nat
  height : Nat
  piece : PieceKind
  allow180 : Bool
  profile : KickTableProfile
  board : Board

namespace Arena

/-- Inside the columns and not below the floor. -/
def Fits (g : Arena) (s : State) : Prop :=
  ∀ c ∈ shapeCells g.piece s.rotation,
    0 ≤ s.x + c.x ∧ s.x + c.x < g.width ∧ 0 ≤ s.y + c.y

/-- No cell on an occupied board cell; above the board everything is empty. -/
def Clear (g : Arena) (s : State) : Prop :=
  ∀ c ∈ shapeCells g.piece s.rotation, s.y + c.y < g.height →
    g.board.getLsbD ((s.y + c.y).toNat * g.width + (s.x + c.x).toNat) = false

def Under (ceiling : Option Nat) (s : State) : Prop := ∀ c ∈ ceiling, s.y ≤ c

def Free (g : Arena) (ceiling : Option Nat) (s : State) : Prop :=
  Under ceiling s ∧ g.Fits s ∧ g.Clear s

instance (g : Arena) (s : State) : Decidable (g.Fits s) :=
  inferInstanceAs (Decidable (∀ c ∈ shapeCells g.piece s.rotation, _))

instance (g : Arena) (s : State) : Decidable (g.Clear s) :=
  inferInstanceAs (Decidable (∀ c ∈ shapeCells g.piece s.rotation, _))

instance (ceiling : Option Nat) (s : State) : Decidable (Under ceiling s) :=
  inferInstanceAs (Decidable (∀ c ∈ ceiling, _))

instance (g : Arena) (ceiling : Option Nat) (s : State) : Decidable (g.Free ceiling s) :=
  inferInstanceAs (Decidable (_ ∧ _))

/-- The rotations a pose may attempt. -/
def rotationChoices (g : Arena) (s : State) : List RotationState :=
  if g.allow180 then rotationsFrom s.rotation
  else [s.rotation.clockwise, s.rotation.counterClockwise]

/-- Where the kicks of a rotation lead, in the order they are tried. -/
def kickTargets (g : Arena) (s : State) (dst : RotationState) : List State :=
  ((g.profile.sequenceFor ⟨g.piece, s.rotation, dst⟩).getD []).map fun kick =>
    ⟨dst, s.x + (normalizedKickDelta g.piece s.rotation dst kick).1,
      s.y + (normalizedKickDelta g.piece s.rotation dst kick).2⟩

inductive Move (g : Arena) (ceiling : Option Nat) : State → State → Prop
  | translate (s : State) (slot : Fin 3) (h : g.Free ceiling (translationCandidates s slot)) :
      Move g ceiling s (translationCandidates s slot)
  | rotate (s : State) (dst : RotationState) (hdst : dst ∈ g.rotationChoices s) (t : State)
      (h : (g.kickTargets s dst).find? (fun t => g.Free ceiling t) = some t) :
      Move g ceiling s t

/-- Where a piece may appear: anywhere above the board that the columns allow. -/
def Sky (g : Arena) (ceiling : Option Nat) (s : State) : Prop :=
  Under ceiling s ∧ g.Fits s ∧ g.height ≤ s.y

def Reachable (g : Arena) (ceiling : Option Nat) (s : State) : Prop :=
  ∃ seed, g.Sky ceiling seed ∧ Relation.ReflTransGen (g.Move ceiling) seed s

/-- Nothing to fall into. -/
def Grounded (g : Arena) (s : State) : Prop := ¬g.Free none { s with y := s.y - 1 }

/-! ## First consequences -/

variable {g : Arena} {ceiling : Option Nat}

theorem Move.free {s t : State} (h : g.Move ceiling s t) : g.Free ceiling t := by
  cases h with
  | translate slot h => exact h
  | rotate dst hdst t h => simpa using List.find?_some h

variable {s : State}

theorem Fits.x_nonneg (h : g.Fits s) : 0 ≤ s.x := by
  obtain ⟨c, hc, hx⟩ := exists_shapeCell_x_zero g.piece s.rotation
  have := (h c hc).1
  rw [hx] at this
  simpa using this

theorem Fits.x_lt (h : g.Fits s) : s.x < g.width := by
  obtain ⟨c, hc, hx⟩ := exists_shapeCell_x_zero g.piece s.rotation
  have := (h c hc).2.1
  rw [hx] at this
  simpa using this

theorem Fits.y_nonneg (h : g.Fits s) : 0 ≤ s.y := by
  obtain ⟨c, hc, hy⟩ := exists_shapeCell_y_zero g.piece s.rotation
  have := (h c hc).2.2
  rw [hy] at this
  simpa using this

/-- Fitting depends on the columns, and on the row only through the floor. -/
theorem Fits.of_row {r : RotationState} {x y y' : Int} (h : g.Fits ⟨r, x, y⟩) (hy : 0 ≤ y') :
    g.Fits ⟨r, x, y'⟩ := by
  intro c hc
  obtain ⟨h1, h2, -⟩ := h c hc
  exact ⟨h1, h2, by simp only; omega⟩

theorem clear_of_height_le (h : g.height ≤ s.y) : g.Clear s := by
  intro c _ hlt
  omega

theorem Sky.free (h : g.Sky ceiling s) : g.Free ceiling s := ⟨h.1, h.2.1, clear_of_height_le h.2.2⟩

theorem Reachable.free (h : g.Reachable ceiling s) : g.Free ceiling s := by
  obtain ⟨seed, hsky, hrun⟩ := h
  cases hrun with
  | refl => exact hsky.free
  | tail _ hstep => exact hstep.free

theorem under_none (s : State) : Under none s := by
  intro c hc
  simp at hc

theorem under_some {c : Nat} : Under (some c) s ↔ s.y ≤ c := by
  simp [Under]

end Arena
end Clearra.Executor
