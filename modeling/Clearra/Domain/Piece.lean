import Clearra.Lib.SortDedup

/-!
# Pieces and rotations (`clearra-core-domain`)

The two enumerations every other crate is written over. Both derive `Ord` in the source, and
the derived order is the order of declaration; catalog rows, multiset keys and graph edges are
all sorted through it, so it is part of the model and not a convenience.
-/

namespace Clearra

/-- `usize::MAX` of a 64-bit host. -/
def usizeMax : Nat := 2 ^ 64 - 1

inductive PieceKind where
  | I | O | T | S | Z | J | L
  deriving DecidableEq, Inhabited

namespace PieceKind

/-- `PieceKind::STANDARD_TETROMINOES`. -/
def standardTetrominoes : List PieceKind := [I, O, T, S, Z, J, L]

/-- `piece_index`: the position in `STANDARD_TETROMINOES`. -/
def index : PieceKind → Nat
  | I => 0
  | O => 1
  | T => 2
  | S => 3
  | Z => 4
  | J => 5
  | L => 6

instance : Fintype PieceKind where
  elems := {I, O, T, S, Z, J, L}
  complete := by intro p; cases p <;> simp

@[simp] theorem mem_standardTetrominoes (p : PieceKind) : p ∈ standardTetrominoes := by
  cases p <;> simp [standardTetrominoes]

theorem index_injective : Function.Injective index := by
  intro p q h
  cases p <;> cases q <;> first | rfl | exact absurd h (by decide)

/-- The derived `Ord`: declaration order. -/
instance : LinearOrder PieceKind := LinearOrder.lift' index index_injective

end PieceKind

inductive RotationState where
  | zero | right | two | left
  deriving DecidableEq, Inhabited

namespace RotationState

/-- `RotationState::ALL`. -/
def all : List RotationState := [zero, right, two, left]

def quarterTurns : RotationState → Nat
  | zero => 0
  | right => 1
  | two => 2
  | left => 3

/-- `from_quarter_turns(..)`; the source's error carries nothing, so it is `none`. -/
def fromQuarterTurns : Nat → Option RotationState
  | 0 => some zero
  | 1 => some right
  | 2 => some two
  | 3 => some left
  | _ => none

def clockwise : RotationState → RotationState
  | zero => right
  | right => two
  | two => left
  | left => zero

def counterClockwise : RotationState → RotationState
  | zero => left
  | right => zero
  | two => right
  | left => two

def rotated180 (r : RotationState) : RotationState := r.clockwise.clockwise

instance : Fintype RotationState where
  elems := {zero, right, two, left}
  complete := by intro r; cases r <;> simp

@[simp] theorem mem_all (r : RotationState) : r ∈ all := by
  cases r <;> simp [all]

theorem quarterTurns_lt (r : RotationState) : r.quarterTurns < 4 := by
  cases r <;> decide

theorem quarterTurns_injective : Function.Injective quarterTurns := by
  intro r s h
  cases r <;> cases s <;> first | rfl | exact absurd h (by decide)

@[simp] theorem fromQuarterTurns_quarterTurns (r : RotationState) :
    fromQuarterTurns r.quarterTurns = some r := by
  cases r <;> rfl

/-- The derived `Ord`: declaration order. -/
instance : LinearOrder RotationState := LinearOrder.lift' quarterTurns quarterTurns_injective

end RotationState
end Clearra
