import Clearra.Executor.Rows

/-!
# The inverse lock-clear catalog (`wasm_cpu/catalog.rs`)

A piece that locks after some rows have been cleared ends up, in the frame of the target board,
with its rows pulled apart: between two of its rows lie the target rows that had gone by then. The
catalog lists every way that can happen inside the required cells, once and for all clear
histories. A *realization* is one way — rotation, column, and target rows, of which the rows in
between must have been deleted; a *skeleton row* groups the realizations with the same cells; and
`instantiations` turns the realizations of a skeleton into concrete locks for one set of deleted
rows, from a precomputed table if there is one.

Whether a reservation succeeds is an argument of the compiler. The other indexes compiled into the
catalog (support lists, arm pairs, projections, separators, temporal metadata) only enter here in
that each may fail to be built.
-/

namespace Clearra.Executor

open Lib

inductive WasmExactSearchError where
  | invalidProblem (reason : String)
  deriving DecidableEq

/-! ## Clear-row domains (`build_clear_rows.rs`) -/

/-- The rows that may be cleared, as a `u32`. -/
structure ClearRowDomain where
  rows : BitVec 32

namespace ClearRowDomain

def unrestricted : ClearRowDomain := ⟨BitVec.allOnes 32⟩

/-- The rows that the target completes. -/
def forCompletedTarget (width height : Nat) (occupiedRow : Nat → Board) : ClearRowDomain :=
  ⟨(List.range height).foldl
    (fun rows row => if occupiedRow row = fullRowMask width then rows ||| (1#32 <<< row) else rows)
    0⟩

def isEmpty (domain : ClearRowDomain) : Bool := domain.rows = 0

def allowsRequiredRows (domain : ClearRowDomain) (required : BitVec 32) : Bool :=
  (required &&& ~~~domain.rows) = 0

/-- `u32::MAX.checked_shr(32 - row).unwrap_or(0)`. -/
def below (row : Nat) : BitVec 32 :=
  if 32 - row < 32 then BitVec.allOnes 32 >>> (32 - row) else 0

/-- Only the interval between the two rows is checked; earlier ones have passed already. -/
def allowsGap (domain : ClearRowDomain) (firstDeleted nextTargetRow : Nat) : Bool :=
  domain.allowsRequiredRows (below nextTargetRow &&& ~~~below firstDeleted)

end ClearRowDomain

/-! ## The early row filter (`inverse_projection.rs`) -/

structure ProjectionRowFilter where
  allowedTargetRows : Nat → BitVec 32
  columnsPossible : Bool

namespace ProjectionRowFilter

/-- The columns of one local row, as a row mask. -/
def rowColumns (cells : List ShapeCell) (x : Int) (localRow : Nat) : Board :=
  (cells.filter fun cell => cell.y = localRow).foldl
    (fun columns cell => columns ||| bit (x + cell.x).toNat) 0

/-- How many cells the shape has in a column. -/
def columnDemand (cells : List ShapeCell) (x : Int) (column : Nat) : Nat :=
  cells.countP fun cell => (x + cell.x).toNat = column

/-- How many rows offer a cell in a column. -/
def columnCapacity (height : Nat) (availableRow : Nat → Board) (column : Nat) : Nat :=
  (List.range height).countP fun row => (availableRow row).getLsbD column

/-- `compile` under the product policy `Early`. `None` means no filter: the domain is not one the
    filter was written for. -/
def compile (width height : Nat) (cells : List ShapeCell) (localRows : List Nat) (x : Int)
    (availableRow : Nat → Board) : Option ProjectionRowFilter :=
  if width = 0 ∨ width > 64 ∨ height = 0 ∨ height > 32 ∨ localRows = [] ∨
      localRows.length > cells.length ∨ ¬localRows.Pairwise (· < ·) then none
  else if cells.any fun cell => x + cell.x < 0 ∨ x + cell.x ≥ width then
    some ⟨fun _ => 0, false⟩
  else if cells.any fun cell => cell.y ∉ localRows then none
  else
    some
      { allowedTargetRows := fun localIndex =>
          match localRows[localIndex]? with
          | none => 0
          | some localRow => (List.range height).foldl
              (fun rows targetY =>
                if (rowColumns cells x localRow &&& ~~~availableRow targetY) = 0 then
                  rows ||| (1#32 <<< targetY)
                else rows) 0
        columnsPossible := (List.range width).all fun column =>
          columnDemand cells x column ≤ columnCapacity height availableRow column }

def rowAllowed (filter : ProjectionRowFilter) (localIndex targetY : Nat) : Bool :=
  (filter.allowedTargetRows localIndex &&& (1#32 <<< targetY)) ≠ 0

end ProjectionRowFilter

/-! ## Realizations -/

structure Realization where
  piece : PieceKind
  cells : Board
  requiredDeletedRows : Rows
  rotation : RotationState
  x : Int
  targetAnchorY : Int
  deriving DecidableEq

namespace Realization

/-- The derived `Ord`: field by field in order of declaration. -/
def ordKey (r : Realization) : PieceKind ×ₗ Nat ×ₗ Nat ×ₗ RotationState ×ₗ Int ×ₗ Int :=
  toLex (r.piece, toLex (r.cells.toNat, toLex (r.requiredDeletedRows.toNat,
    toLex (r.rotation, toLex (r.x, r.targetAnchorY)))))

theorem ordKey_injective : Function.Injective ordKey := by
  rintro ⟨p, c, d, r, x, y⟩ ⟨p', c', d', r', x', y'⟩ h
  simp only [ordKey, EmbeddingLike.apply_eq_iff_eq, Prod.mk.injEq] at h
  obtain ⟨rfl, hc, hd, rfl, rfl, rfl⟩ := h
  rw [BitVec.eq_of_toNat_eq hc, BitVec.eq_of_toNat_eq hd]

instance : LinearOrder Realization := LinearOrder.lift' ordKey ordKey_injective

end Realization

/-- The distinct rows of a shape, ascending. -/
def localRows (cells : List ShapeCell) : List Nat := sortDedup (cells.map ShapeCell.y)

/-- `shape.width()`. -/
def shapeWidth (cells : List ShapeCell) : Nat :=
  match (cells.map ShapeCell.x).max? with
  | none => 0
  | some maxX => maxX + 1

/-- What an enumeration of row projections reads and never changes. -/
structure ProjectionContext where
  width : Nat
  height : Nat
  initialBoard : Board
  requiredCells : Board
  piece : PieceKind
  rotation : RotationState
  x : Int
  rowFilter : Option ProjectionRowFilter
  clearRows : ClearRowDomain

namespace ProjectionContext

def cells (ctx : ProjectionContext) : List ShapeCell := shapeCells ctx.piece ctx.rotation

/-- The cells of the shape with local row `i` sent to `targetRows[i]`. -/
def projectedMask (ctx : ProjectionContext) (targetRows : List Nat) : Option Board :=
  ctx.cells.foldlM
    (fun mask cell =>
      let targetY := targetRows.getD ((localRows ctx.cells).idxOf cell.y) 0
      let targetX := ctx.x + cell.x
      if targetX < 0 ∨ targetX ≥ ctx.width then none
      else some (mask ||| bit (targetY * ctx.width + targetX.toNat)))
    0

/-- The rows strictly between consecutive target rows, beyond the shape's own gaps. -/
def requiredDeleted (ctx : ProjectionContext) (targetRows : List Nat) : Rows :=
  ((List.range (localRows ctx.cells).length).drop 1).foldl
    (fun rows index =>
      let localGap :=
        (localRows ctx.cells).getD index 0 - (localRows ctx.cells).getD (index - 1) 0
      let firstDeleted := targetRows.getD (index - 1) 0 + localGap
      (List.range' firstDeleted (targetRows.getD index 0 - firstDeleted)).foldl
        (fun rows row => rows ||| rowBit row) rows)
    0

/-- All rows assigned: keep the projection if it lies in the required cells and needs only rows
    that may be cleared. -/
def leaf (ctx : ProjectionContext) (targetRows : List Nat) : List Realization :=
  match ctx.projectedMask targetRows with
  | none => []
  | some mask =>
    if (mask &&& ctx.initialBoard) ≠ 0 ∨ (mask &&& ~~~ctx.requiredCells) ≠ 0 then []
    else if ctx.clearRows.allowsRequiredRows
        ((ctx.requiredDeleted targetRows).setWidth 32) = false then []
    else
      [⟨ctx.piece, mask, ctx.requiredDeleted targetRows, ctx.rotation, ctx.x,
        targetRows.getD 0 0⟩]

/-- Lowest target row for the next local row. -/
def minimumRow (ctx : ProjectionContext) (targetRows : List Nat) (localRow : Nat) : Nat :=
  let rowIndex := targetRows.length
  if rowIndex = 0 then localRow
  else targetRows.getD (rowIndex - 1) 0 + localRow - (localRows ctx.cells).getD (rowIndex - 1) 0

/-- Highest target row for the next local row, leaving room for the rest of the shape. -/
def maximumRow (ctx : ProjectionContext) (targetRows : List Nat) (localRow : Nat) : Nat :=
  let remainingSpan := (localRows ctx.cells).getLastD 0 - localRow
  if targetRows.length ≠ 0 ∧ ctx.clearRows.isEmpty = true then
    min (ctx.minimumRow targetRows localRow) (ctx.height - 1 - remainingSpan)
  else ctx.height - 1 - remainingSpan

/-- Whether the enumeration goes on with `targetRow` for local row number `targetRows.length`. -/
def rowAdmitted (ctx : ProjectionContext) (targetRows : List Nat) (localRow targetRow : Nat) :
    Bool :=
  !(targetRows.length ≠ 0 &&
      !ctx.clearRows.allowsGap (ctx.minimumRow targetRows localRow) targetRow) &&
    match ctx.rowFilter with
    | none => true
    | some filter => filter.rowAllowed targetRows.length targetRow

/-- `enumerate_row_projections`: the first argument is the local rows still to be assigned, the
    second the target rows assigned so far. -/
def enumerateRowProjections (ctx : ProjectionContext) : List Nat → List Nat → List Realization
  | [], targetRows => ctx.leaf targetRows
  | localRow :: rest, targetRows =>
    let remainingSpan := (localRows ctx.cells).getLastD 0 - localRow
    if remainingSpan ≥ ctx.height then []
    else
      let minimum := ctx.minimumRow targetRows localRow
      (List.range' minimum (ctx.maximumRow targetRows localRow + 1 - minimum)).flatMap
        fun targetRow =>
          if ctx.rowAdmitted targetRows localRow targetRow then
            enumerateRowProjections ctx rest (targetRows ++ [targetRow])
          else []

end ProjectionContext

/-! ## Instantiation -/

structure InstantiatedRealization where
  lockMask : Board
  rotation : RotationState
  x : Int
  lockY : Int
  deriving DecidableEq

namespace InstantiatedRealization

/-- The derived `Ord`. -/
def ordKey (r : InstantiatedRealization) : Nat ×ₗ RotationState ×ₗ Int ×ₗ Int :=
  toLex (r.lockMask.toNat, toLex (r.rotation, toLex (r.x, r.lockY)))

theorem ordKey_injective : Function.Injective ordKey := by
  rintro ⟨m, r, x, y⟩ ⟨m', r', x', y'⟩ h
  simp only [ordKey, EmbeddingLike.apply_eq_iff_eq, Prod.mk.injEq] at h
  obtain ⟨hm, rfl, rfl, rfl⟩ := h
  rw [BitVec.eq_of_toNat_eq hm]

instance : LinearOrder InstantiatedRealization := LinearOrder.lift' ordKey ordKey_injective

end InstantiatedRealization

/-- One cell of a lock, entered in the current board and in the target frame; `none` when it is
    outside the board or in no visible row. -/
def projectLockStep (width height : Nat) (deletedRows : Rows) (x lockY : Int)
    (masks : Board × Board) (cell : ShapeCell) : Option (Board × Board) :=
  let cellX := x + cell.x
  let cellY := lockY + cell.y
  if cellX < 0 ∨ cellX ≥ width ∨ cellY < 0 ∨ cellY ≥ height then none
  else
    match targetRowForCurrentRow height deletedRows cellY.toNat with
    | none => none
    | some targetY =>
      some (masks.1 ||| bit (cellY.toNat * width + cellX.toNat),
        masks.2 ||| bit (targetY * width + cellX.toNat))

/-- The `physical` and `projected` masks of a lock. -/
def projectLock (width height : Nat) (deletedRows : Rows) (piece : PieceKind)
    (rotation : RotationState) (x lockY : Int) : Option (Board × Board) :=
  (shapeCells piece rotation).foldlM (projectLockStep width height deletedRows x lockY) (0, 0)

def instantiateRealizationRaw (width height : Nat) (targetCells : Board)
    (realization : Realization) (deletedRows : Rows) : Option InstantiatedRealization :=
  if (realization.requiredDeletedRows &&& ~~~deletedRows) ≠ 0 then none
  else if (occupiedRows width targetCells &&& deletedRows) ≠ 0 then none
  else
    let deletedBelow := countOnes (deletedRows &&& lowerRowMask realization.targetAnchorY.toNat)
    let lockY := realization.targetAnchorY - deletedBelow
    if lockY < 0 then none
    else
      match projectLock width height deletedRows realization.piece realization.rotation
        realization.x lockY with
      | none => none
      | some (physical, projected) =>
        if projected = targetCells then
          some ⟨physical, realization.rotation, realization.x, lockY⟩
        else none

/-! ## The catalog -/

structure SkeletonRow where
  piece : PieceKind
  cells : Board
  realizationStart : Nat
  realizationCount : Nat
  deriving DecidableEq

structure GeometryCatalog where
  width : Nat
  height : Nat
  initialBoard : Board
  requiredCells : Board
  skeletons : List SkeletonRow
  realizations : List Realization
  clearStateCount : Nat
  instantiationOffsets : Option (List Nat)
  instantiatedRealizations : List InstantiatedRealization

/-- Whether the storage the compiler asks for is there. The first two and the indexes are needed,
    the instantiation table is not. -/
structure CatalogStorage where
  realizations : Bool
  skeletons : Bool
  indexes : Except WasmExactSearchError Unit
  instantiationTable : Bool

/-- The grouping loop: sorted realizations with the same piece and cells form one skeleton. -/
def groupSkeletons : Nat → List Realization → List SkeletonRow
  | _, [] => []
  | start, r :: rest =>
    match groupSkeletons (start + 1) rest with
    | [] => [⟨r.piece, r.cells, start, 1⟩]
    | s :: more =>
      if s.piece = r.piece ∧ s.cells = r.cells then
        ⟨r.piece, r.cells, start, s.realizationCount + 1⟩ :: more
      else ⟨r.piece, r.cells, start, 1⟩ :: s :: more

/-- `MAX_INSTANTIATION_TABLE_VALUES`. -/
def maxInstantiationTableValues : Nat := 4 * 1024 * 1024

/-- One table row: instantiated, sorted, deduplicated. -/
def instantiationRow (width height : Nat) (realizations : List Realization)
    (skeleton : SkeletonRow) (deletedRows : Nat) : List InstantiatedRealization :=
  sortDedup ((slice realizations skeleton.realizationStart
    (skeleton.realizationStart + skeleton.realizationCount)).filterMap fun realization =>
      instantiateRealizationRaw width height skeleton.cells realization
        (BitVec.ofNat 16 deletedRows))

def compileInstantiationTable (width height : Nat) (skeletons : List SkeletonRow)
    (realizations : List Realization) (storage : Bool) :
    Option (Csr InstantiatedRealization) :=
  let clearStateCount := 2 ^ height
  if realizations.length * clearStateCount > maxInstantiationTableValues then none
  else if storage = false then none
  else
    some (Csr.ofRows (skeletons.flatMap fun skeleton =>
      (List.range clearStateCount).map fun deletedRows =>
        instantiationRow width height realizations skeleton deletedRows))

/-- Every realization of every piece, rotation and column, in enumeration order. -/
def enumerateRealizations (width height : Nat) (initialBoard requiredCells : Board)
    (clearRows : ClearRowDomain) : List Realization :=
  PieceKind.standardTetrominoes.flatMap fun piece =>
    RotationState.all.flatMap fun rotation =>
      let cells := shapeCells piece rotation
      if width < shapeWidth cells then []
      else
        (List.range (width - shapeWidth cells + 1)).flatMap fun (x : Nat) =>
          let rowFilter := ProjectionRowFilter.compile width height cells (localRows cells) (x : Int)
            fun row => boardRow width (requiredCells &&& ~~~initialBoard) row
          match rowFilter with
          | some ⟨_, false⟩ => []
          | _ =>
            ProjectionContext.enumerateRowProjections
              ⟨width, height, initialBoard, requiredCells, piece, rotation, (x : Int), rowFilter,
                clearRows⟩ (localRows cells) []

/-- The mask of all cells of a board. -/
def allCellsMask (cellCount : Nat) : Board :=
  if cellCount = 64 then BitVec.allOnes 64 else bit cellCount - 1

def compileWithClearRowDomain (width height : Nat) (initialBoard requiredCells : Board)
    (buildTarget : Bool) (storage : CatalogStorage) :
    Except WasmExactSearchError GeometryCatalog :=
  let cellCount := width * height
  if width = 0 ∨ height = 0 ∨ cellCount > 64 ∨ height > 16 then
    .error (.invalidProblem "wasm_geometry_requires_board64_target_height_at_most_16")
  else if (initialBoard &&& ~~~allCellsMask cellCount) ≠ 0 then
    .error (.invalidProblem "wasm_initial_board_outside_search_region")
  else if (requiredCells &&& ~~~allCellsMask cellCount) ≠ 0 then
    .error (.invalidProblem "wasm_build_target_outside_search_region")
  else if (requiredCells &&& initialBoard) ≠ 0 then
    .error (.invalidProblem "wasm_build_target_overlaps_initial_board")
  else if countOnes requiredCells % 4 ≠ 0 then
    .error (.invalidProblem "wasm_required_fill_area_not_tetromino_aligned")
  else if storage.realizations = false then
    .error (.invalidProblem "wasm_geometry_catalog_realization_storage_unavailable")
  else if storage.skeletons = false then
    .error (.invalidProblem "wasm_geometry_catalog_skeleton_storage_unavailable")
  else
    match storage.indexes with
    | .error e => .error e
    | .ok () =>
      let clearRows :=
        if buildTarget then
          ClearRowDomain.forCompletedTarget width height fun row =>
            boardRow width (initialBoard ||| requiredCells) row
        else ClearRowDomain.unrestricted
      let realizations := sortDedup
        (enumerateRealizations width height initialBoard requiredCells clearRows)
      let skeletons := groupSkeletons 0 realizations
      let table := compileInstantiationTable width height skeletons realizations
        storage.instantiationTable
      .ok
        { width, height, initialBoard, requiredCells, skeletons, realizations
          clearStateCount := 2 ^ height
          instantiationOffsets := table.map Csr.offsets
          instantiatedRealizations := (table.map Csr.values).getD [] }

namespace GeometryCatalog

/-- `realizations(row_id)`. -/
def realizationsOf (catalog : GeometryCatalog) (row : SkeletonRow) : List Realization :=
  slice catalog.realizations row.realizationStart
    (row.realizationStart + row.realizationCount)

/-- The precomputed row, if there is a table. -/
def precomputed (catalog : GeometryCatalog) (rowId : Nat) (deletedRows : Rows) :
    Option (List InstantiatedRealization) :=
  catalog.instantiationOffsets.map fun offsets =>
    if deletedRows.toNat ≥ catalog.clearStateCount then []
    else
      (Csr.mk offsets catalog.instantiatedRealizations).row
        (rowId * catalog.clearStateCount + deletedRows.toNat)

/-- `instantiations(row_id, deleted_rows)`, drained: the table row, or the realizations
    instantiated one by one. -/
def instantiations (catalog : GeometryCatalog) (rowId : Nat) (deletedRows : Rows) :
    List InstantiatedRealization :=
  match catalog.skeletons[rowId]? with
  | none => []
  | some row =>
    match catalog.precomputed rowId deletedRows with
    | some values => values
    | none => (catalog.realizationsOf row).filterMap fun realization =>
        instantiateRealizationRaw catalog.width catalog.height row.cells realization deletedRows

end GeometryCatalog
end Clearra.Executor
