import Clearra.Ctk3.Predict

/-!
# Both sides predict the same field

The decoder's predictions go through indices that could be out of bounds and casts that could cut.
None is and none does, so that in every build of 32 bits or more they are the encoder's functions.
-/

namespace Clearra.Proof.Ctk3

open Clearra.Ctk3 List

@[simp] theorem length_fitCodes (codes : List Nat) (count : Nat) :
    (fitCodes codes count).length = count := by
  rw [fitCodes, length_map, length_range]

theorem storedAll_eq {stores : List (Nat × Nat)} {cells : List Nat}
    (h : ∀ store ∈ stores, store.1 < cells.length) :
    storedAll stores cells = pure (storeAll stores cells) := by
  induction stores generalizing cells with
  | nil => rfl
  | cons store stores ih =>
    obtain ⟨hstore, hrest⟩ := forall_mem_cons.mp h
    rw [storedAll, stored, if_pos hstore, pure_bind, ih (by rwa [length_set])]
    rfl

theorem row_cell_lt {x y width height : Nat} (hx : x < width) (hy : y < height) :
    y * width + x < height * width :=
  calc y * width + x < y * width + width := Nat.add_lt_add_left hx _
    _ = (y + 1) * width := (Nat.succ_mul y width).symm
    _ ≤ height * width := Nat.mul_le_mul_right _ hy

theorem decoder_mirrorCodes (source : List Nat) (sourceHeight width targetHeight : Nat) :
    Decoder.mirrorCodes source sourceHeight width targetHeight =
      pure (mirrorCodes source sourceHeight width targetHeight) := by
  refine storedAll_eq fun store hstore => ?_
  rw [mirrorStores, mem_flatMap] at hstore
  obtain ⟨y, hy, hstore⟩ := hstore
  obtain ⟨x, hx, rfl⟩ := mem_map.mp hstore
  rw [mem_range] at hx hy
  rw [length_replicate]
  exact row_cell_lt (by omega) (by omega)

/-! ## Locking -/

variable {cell : Int × Int}

theorem cellIndex_lt {cast : Int → Nat} {width height : Nat}
    (h : insideField cast width height cell = true) :
    cellIndex cast width cell < height * width := by
  simp only [insideField, decide_eq_true_eq] at h
  exact row_cell_lt h.2.1 h.2.2.2

theorem cellsFree_eq (b : Build) {width height : Nat} {cells : List Nat}
    (hcells : cells.length = height * width) (occupied : List (Int × Int)) :
    Decoder.cellsFree b width height cells occupied = pure (occupied.all fun cell =>
      insideField b.cast width height cell && cells.getD (cellIndex b.cast width cell) 0 == 0) := by
  induction occupied with
  | nil => rfl
  | cons cell rest ih =>
    rw [Decoder.cellsFree, all_cons]
    by_cases hinside : insideField b.cast width height cell = true
    · have hlt := hcells ▸ cellIndex_lt hinside
      rw [if_pos hinside, indexed, getElem?_eq_getElem hlt, hinside, ih, getD_eq_getElem _ _ hlt]
      change (if cells[cellIndex b.cast width cell] = 0 then _ else _) = _
      by_cases hfree : cells[cellIndex b.cast width cell] = 0
      · rw [if_pos hfree, hfree]
        rfl
      · rw [if_neg hfree, beq_false_of_ne hfree]
        rfl
    · rw [if_neg hinside, Bool.not_eq_true] at *
      rw [hinside]
      rfl

theorem cast_eq {b : Build} (hb : 32 ≤ b.pointerBits) {v : Int} (hv : v < 2 ^ 32) :
    b.cast v = v.toNat := by
  have hwide : 2 ^ 32 ≤ 2 ^ b.pointerBits := Nat.pow_le_pow_right (by decide) hb
  exact Nat.mod_eq_of_lt (by omega)

theorem operationOffsets_le (piece : Ctk3Piece) (rotation : Ctk3Rotation) :
    ∀ o ∈ operationOffsets piece rotation, o.1 ≤ 2 ∧ o.2 ≤ 2 := by
  cases piece <;> cases rotation <;> decide

/-- The operation of the page, if it has one, is near the origin. -/
def NearOperation (page : NormalizedPage) : Prop :=
  ∀ operation, page.operation = some operation → coordinatesInRange operation = true

section

variable {page : NormalizedPage} (hpage : NearOperation page)
include hpage

theorem footprint_lt (hcell : cell ∈ footprint page) :
    cell.1 < 2 ^ 31 ∧ cell.2 < 2 ^ 31 := by
  rw [footprint] at hcell
  split at hcell
  · rename_i operation hoperation
    have hrange := of_decide_eq_true (hpage operation hoperation)
    rw [maxOperationCoordinate] at hrange
    obtain ⟨o, ho, rfl⟩ := mem_map.mp hcell
    have := operationOffsets_le _ _ o ho
    simp only
    omega
  · simp at hcell

theorem operationHeight_lt : operationHeight (footprint page) < 2 ^ 32 := by
  have hfold : ∀ (cells : List (Int × Int)) (height : Int), height < 2 ^ 32 →
      (∀ cell ∈ cells, cell.2 < 2 ^ 31) →
      cells.foldl (fun height cell => max height (cell.2 + 1)) height < 2 ^ 32 := by
    intro cells
    induction cells with
    | nil => exact fun _ h _ => h
    | cons cell cells ih =>
      intro height hheight hcells
      obtain ⟨hcell, hcells⟩ := forall_mem_cons.mp hcells
      exact ih _ (max_lt hheight (by omega)) hcells
  exact hfold _ _ (by decide) fun cell hcell => (footprint_lt hpage hcell).2

variable {b : Build} (hb : 32 ≤ b.pointerBits)
include hb

theorem lockedHeight_eq : lockedHeight b.cast page = lockedHeight Int.toNat page := by
  rw [lockedHeight, lockedHeight, cast_eq hb (operationHeight_lt hpage)]

theorem cellIndex_eq (hcell : cell ∈ footprint page) (width : Nat) :
    cellIndex b.cast width cell = cellIndex Int.toNat width cell := by
  have hlt := footprint_lt hpage hcell
  rw [cellIndex, cellIndex, cast_eq hb (by omega), cast_eq hb (by omega)]

theorem insideField_eq (hcell : cell ∈ footprint page) (width height : Nat) :
    insideField b.cast width height cell = insideField Int.toNat width height cell := by
  have hlt := footprint_lt hpage hcell
  rw [insideField, insideField, cast_eq hb (by omega), cast_eq hb (by omega)]

theorem lockStores_eq (width : Nat) (operation : Ctk3Operation) :
    lockStores b.cast page width operation = lockStores Int.toNat page width operation :=
  map_congr_left fun cell hcell => by rw [cellIndex_eq hpage hb hcell]

theorem decoder_lockedCells (width : Nat) :
    Decoder.lockedCells b page width = pure (lockedCells page width) := by
  rw [Decoder.lockedCells, lockedCells, lockedHeight_eq hpage hb]
  cases hoperation : page.operation with
  | none => rfl
  | some operation =>
    have hfree : ((footprint page).all fun cell =>
        insideField b.cast width (lockedHeight Int.toNat page) cell &&
          (fitCodes page.codes (lockedHeight Int.toNat page * width)).getD
            (cellIndex b.cast width cell) 0 == 0) = (footprint page).all fun cell =>
        insideField Int.toNat width (lockedHeight Int.toNat page) cell &&
          (fitCodes page.codes (lockedHeight Int.toNat page * width)).getD
            (cellIndex Int.toNat width cell) 0 == 0 := by
      rw [Bool.eq_iff_iff, all_eq_true, all_eq_true]
      refine forall_congr' fun cell => forall_congr' fun hcell => ?_
      rw [cellIndex_eq hpage hb hcell, insideField_eq hpage hb hcell]
    simp only
    rw [cellsFree_eq b (length_fitCodes _ _), hfree, lockStores_eq hpage hb, pure_bind]
    by_cases hlock : page.flags.lock = true
    · rw [if_pos hlock]
      split
      · rename_i hall
        rw [if_pos ⟨hlock, hall⟩]
        refine storedAll_eq fun store hstore => ?_
        obtain ⟨cell, hcell, rfl⟩ := mem_map.mp hstore
        rw [length_fitCodes]
        exact cellIndex_lt (Bool.and_eq_true_iff.mp (all_eq_true.mp hall cell hcell)).1
      · rename_i hall
        rw [if_neg fun h => hall h.2]
    · rw [if_neg hlock, if_neg fun h => hlock h.1]

theorem decoder_predictLockedCodes (width targetHeight : Nat) (clearRows grayscale : Bool) :
    Decoder.predictLockedCodes b page width targetHeight clearRows grayscale =
      pure (predictLockedCodes page width targetHeight clearRows grayscale) := by
  rw [Decoder.predictLockedCodes, decoder_lockedCells hpage hb, pure_bind]
  rfl

end

end Clearra.Proof.Ctk3
