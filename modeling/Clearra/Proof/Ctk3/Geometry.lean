import Clearra.Ctk3.Document

/-!
# Canonical operations

The search for a spelling looks only at the set of cells, so that every spelling of one placement ends
in the same operation, and that one in itself. With coordinates in range it never comes back empty:
every orientation of a piece is a shifted copy of one that the search tries.
-/

namespace Clearra.Proof.Ctk3

open Clearra.Ctk3 List

/-! ## Sorting cells -/

instance : Std.Total (fun a c : Int × Int => cellLe a c = true) where
  total a c := by
    simp only [cellLe, decide_eq_true_eq]
    omega

instance : IsTrans (Int × Int) (fun a c => cellLe a c = true) where
  trans a c d h h' := by
    simp only [cellLe, decide_eq_true_eq] at *
    omega

instance : Std.Antisymm (fun a c : Int × Int => cellLe a c = true) where
  antisymm a c h h' := by
    simp only [cellLe, decide_eq_true_eq] at h h'
    exact Prod.ext (by omega) (by omega)

theorem sortCells_perm (cells : List (Int × Int)) : (sortCells cells).Perm cells :=
  perm_insertionSort _ _

variable {cells cells' : List (Int × Int)}

theorem sortCells_congr (h : cells.Perm cells') : sortCells cells = sortCells cells' :=
  List.Perm.eq_of_pairwise' (pairwise_insertionSort _ _) (pairwise_insertionSort _ _)
    (((sortCells_perm cells).trans h).trans (sortCells_perm cells').symm)

/-! ## Cells of an operation -/

theorem nodup_operationOffsets (piece : Ctk3Piece) (rotation : Ctk3Rotation) :
    (operationOffsets piece rotation).Nodup := by
  cases piece <;> cases rotation <;> decide

theorem length_operationOffsets (piece : Ctk3Piece) (rotation : Ctk3Rotation) :
    (operationOffsets piece rotation).length = 4 := by
  cases piece <;> cases rotation <;> rfl

theorem nodup_operationCells (operation : Ctk3Operation) : (operationCells operation).Nodup := by
  refine (nodup_operationOffsets _ _).map fun a c h => ?_
  rw [Prod.ext_iff] at h ⊢
  simp only at h
  omega

theorem length_operationCells (operation : Ctk3Operation) :
    (operationCells operation).length = 4 := by
  rw [operationCells, length_map, length_operationOffsets]

variable {operation : Ctk3Operation} {cells : List (Int × Int)}

theorem operationCells_perm
    (hlength : cells.length = 4) (h : ∀ cell ∈ operationCells operation, cell ∈ cells) :
    (operationCells operation).Perm cells :=
  (subperm_of_subset (nodup_operationCells operation) h).perm_of_length_le
    (by rw [length_operationCells, hlength])

/-! ## The search -/

theorem operationCandidate_eq_some {piece : Ctk3Piece} {target : List (Int × Int)}
    {rotation : Ctk3Rotation} {cell offset : Int × Int} :
    operationCandidate piece target rotation cell offset = some operation ↔
      operation = ⟨piece, rotation, cell.1 - offset.1, cell.2 - offset.2⟩ ∧
        fitsI32 operation.x = true ∧ fitsI32 operation.y = true ∧
        ∀ c ∈ operationCells operation, c ∈ target := by
  simp only [operationCandidate]
  constructor
  · intro h
    split_ifs at h with hfits hcells
    cases h
    rw [Bool.and_eq_true] at hfits
    exact ⟨rfl, hfits.1, hfits.2, by simpa using hcells⟩
  · rintro ⟨rfl, hx, hy, hcells⟩
    rw [if_pos (by rw [Bool.and_eq_true]; exact ⟨hx, hy⟩), if_pos (by simpa using hcells)]

theorem operationFromCells_spec {piece : Ctk3Piece} (hlength : cells.length = 4)
    (h : operationFromCells piece cells = some operation) :
    operation.piece = piece ∧ (operationCells operation).Perm cells := by
  obtain ⟨rotation, -, h⟩ := exists_of_findSome?_eq_some h
  obtain ⟨cell, -, h⟩ := exists_of_findSome?_eq_some h
  obtain ⟨offset, -, h⟩ := exists_of_findSome?_eq_some h
  obtain ⟨rfl, -, -, hcells⟩ := operationCandidate_eq_some.mp h
  exact ⟨rfl, operationCells_perm hlength fun c hc => (sortCells_perm _).mem_iff.mp (hcells c hc)⟩

theorem operationFromCells_congr (piece : Ctk3Piece)
    (h : cells.Perm cells') : operationFromCells piece cells = operationFromCells piece cells' := by
  rw [operationFromCells, operationFromCells, sortCells_congr h]

theorem canonicalizeOperation_eq (operation : Ctk3Operation) : canonicalizeOperation operation =
    operationFromCells operation.piece (operationCells operation) :=
  operationFromCells_congr _ (sortCells_perm _)

theorem canonicalizeOperation_idem {operation canonical : Ctk3Operation}
    (h : canonicalizeOperation operation = some canonical) :
    canonicalizeOperation canonical = some canonical := by
  rw [canonicalizeOperation_eq] at h ⊢
  obtain ⟨hpiece, hperm⟩ := operationFromCells_spec (length_operationCells operation) h
  rw [hpiece, operationFromCells_congr _ hperm, h]

end Clearra.Proof.Ctk3
