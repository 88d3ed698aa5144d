import Clearra.Domain.Piece

/-!
# The standard tetromino shapes (`clearra-piece-registry`)

`STANDARD_TETROMINO_DEFINITIONS`: four cells per piece and rotation, relative to the *anchor*,
which is the lower left corner of the bounding box and need not itself be a cell of the piece.
Every proof about poses goes through the three facts at the end; the table is never unfolded
elsewhere.
-/

namespace Clearra

/-- `ShapeCell`; the registry's `i8` coordinates are all non-negative. -/
structure ShapeCell where
  x : Nat
  y : Nat
  deriving DecidableEq

/-- `standard_tetromino_registry().get(piece).shape(rotation).cells()`. -/
def shapeCells : PieceKind → RotationState → List ShapeCell
  | .I, .zero => [⟨0, 0⟩, ⟨1, 0⟩, ⟨2, 0⟩, ⟨3, 0⟩]
  | .I, .right => [⟨0, 0⟩, ⟨0, 1⟩, ⟨0, 2⟩, ⟨0, 3⟩]
  | .I, .two => [⟨0, 0⟩, ⟨1, 0⟩, ⟨2, 0⟩, ⟨3, 0⟩]
  | .I, .left => [⟨0, 0⟩, ⟨0, 1⟩, ⟨0, 2⟩, ⟨0, 3⟩]
  | .O, _ => [⟨0, 0⟩, ⟨1, 0⟩, ⟨0, 1⟩, ⟨1, 1⟩]
  | .T, .zero => [⟨0, 0⟩, ⟨1, 0⟩, ⟨2, 0⟩, ⟨1, 1⟩]
  | .T, .right => [⟨0, 0⟩, ⟨0, 1⟩, ⟨0, 2⟩, ⟨1, 1⟩]
  | .T, .two => [⟨0, 1⟩, ⟨1, 1⟩, ⟨2, 1⟩, ⟨1, 0⟩]
  | .T, .left => [⟨1, 0⟩, ⟨1, 1⟩, ⟨1, 2⟩, ⟨0, 1⟩]
  | .S, .zero => [⟨0, 0⟩, ⟨1, 0⟩, ⟨1, 1⟩, ⟨2, 1⟩]
  | .S, .right => [⟨1, 0⟩, ⟨0, 1⟩, ⟨1, 1⟩, ⟨0, 2⟩]
  | .S, .two => [⟨0, 0⟩, ⟨1, 0⟩, ⟨1, 1⟩, ⟨2, 1⟩]
  | .S, .left => [⟨1, 0⟩, ⟨0, 1⟩, ⟨1, 1⟩, ⟨0, 2⟩]
  | .Z, .zero => [⟨1, 0⟩, ⟨2, 0⟩, ⟨0, 1⟩, ⟨1, 1⟩]
  | .Z, .right => [⟨0, 0⟩, ⟨0, 1⟩, ⟨1, 1⟩, ⟨1, 2⟩]
  | .Z, .two => [⟨1, 0⟩, ⟨2, 0⟩, ⟨0, 1⟩, ⟨1, 1⟩]
  | .Z, .left => [⟨0, 0⟩, ⟨0, 1⟩, ⟨1, 1⟩, ⟨1, 2⟩]
  | .J, .zero => [⟨0, 1⟩, ⟨0, 0⟩, ⟨1, 0⟩, ⟨2, 0⟩]
  | .J, .right => [⟨0, 0⟩, ⟨0, 1⟩, ⟨0, 2⟩, ⟨1, 2⟩]
  | .J, .two => [⟨0, 1⟩, ⟨1, 1⟩, ⟨2, 1⟩, ⟨2, 0⟩]
  | .J, .left => [⟨0, 0⟩, ⟨1, 0⟩, ⟨1, 1⟩, ⟨1, 2⟩]
  | .L, .zero => [⟨2, 1⟩, ⟨0, 0⟩, ⟨1, 0⟩, ⟨2, 0⟩]
  | .L, .right => [⟨0, 0⟩, ⟨0, 1⟩, ⟨0, 2⟩, ⟨1, 0⟩]
  | .L, .two => [⟨0, 1⟩, ⟨1, 1⟩, ⟨2, 1⟩, ⟨0, 0⟩]
  | .L, .left => [⟨0, 2⟩, ⟨1, 0⟩, ⟨1, 1⟩, ⟨1, 2⟩]

/-! ## What the table guarantees -/

theorem length_shapeCells (piece : PieceKind) (rotation : RotationState) :
    (shapeCells piece rotation).length = 4 := by
  cases piece <;> cases rotation <;> rfl

theorem exists_shapeCell_x_zero (piece : PieceKind) (rotation : RotationState) :
    ∃ c ∈ shapeCells piece rotation, c.x = 0 := by
  cases piece <;> cases rotation <;> decide

theorem exists_shapeCell_y_zero (piece : PieceKind) (rotation : RotationState) :
    ∃ c ∈ shapeCells piece rotation, c.y = 0 := by
  cases piece <;> cases rotation <;> decide

end Clearra
