import Clearra.Ctk3.Transform
import Clearra.Proof.Ctk3.PointerWidth

/-!
# Mirroring twice

Rows are reversed and colours exchanged, and both undo themselves. An operation is found again from
its reflected cells, and the search sees nothing but their set: so mirroring twice is looking for the
spelling of the cells it had, and that is its own spelling, because the decoder has put it there.
-/

namespace Clearra.Proof.Ctk3

open Clearra.Ctk3 Transform Lib List

/-! ## Colours and rows -/

theorem mirrorPiece_mirrorPiece (piece : Ctk3Piece) : mirrorPiece (mirrorPiece piece) = piece := by
  cases piece <;> rfl

theorem mirrorColor_mirrorColor (color : Ctk3Color) :
    Transform.mirrorColor (Transform.mirrorColor color) = color := by
  cases color with
  | piece p => exact congrArg _ (mirrorPiece_mirrorPiece p)
  | empty => rfl
  | gray => rfl

theorem length_mirrorRow (row : List Ctk3Color) : (mirrorRow row).length = row.length := by
  rw [mirrorRow, length_map, length_reverse]

theorem mirrorRow_mirrorRow (row : List Ctk3Color) : mirrorRow (mirrorRow row) = row := by
  rw [mirrorRow, mirrorRow, ← map_reverse, reverse_reverse, map_map]
  exact map_id'' mirrorColor_mirrorColor row

section

variable {width : Nat}

theorem length_mirrorRows (rows : Nat) (cells : List Ctk3Color) :
    (mirrorRows width rows cells).length = cells.length := by
  induction rows generalizing cells with
  | zero => rfl
  | succ rows ih =>
    rw [mirrorRows, length_append, length_mirrorRow, ih, ← length_append, take_append_drop]

theorem mirrorRows_mirrorRows {rows : Nat} {cells : List Ctk3Color}
    (h : rows * width ≤ cells.length) :
    mirrorRows width rows (mirrorRows width rows cells) = cells := by
  induction rows generalizing cells with
  | zero => rfl
  | succ rows ih =>
    rw [Nat.succ_mul] at h
    have hrow : (mirrorRow (cells.take width)).length = width := by
      rw [length_mirrorRow, length_take]
      omega
    have hrest : rows * width ≤ (cells.drop width).length := by
      rw [length_drop]
      omega
    rw [mirrorRows, mirrorRows, take_left' hrow, drop_left' hrow, mirrorRow_mirrorRow, ih hrest,
      take_append_drop]

/-! ## Operations -/

theorem mirrorCell_mirrorCell (cell : Int × Int) :
    mirrorCell width (mirrorCell width cell) = cell := by
  simp [mirrorCell]

theorem mirrorOperation_eq_ok {operation mirrored : Ctk3Operation} :
    mirrorOperation width operation = .ok mirrored ↔
      operationFromCells (mirrorPiece operation.piece)
        ((operationCells operation).map (mirrorCell width)) = some mirrored := by
  rw [mirrorOperation]
  split
  · rename_i found hfound
    rw [hfound, Except.ok.injEq, Option.some.injEq]
  · rename_i hfound
    simp [hfound]

/-- Twice mirrored, an operation is its canonical spelling. -/
theorem mirrorOperation_mirrorOperation {operation mirrored back : Ctk3Operation}
    (h : mirrorOperation width operation = .ok mirrored)
    (h' : mirrorOperation width mirrored = .ok back) :
    canonicalizeOperation operation = some back := by
  rw [mirrorOperation_eq_ok] at h h'
  obtain ⟨hpiece, hcells⟩ := operationFromCells_spec (by rw [length_map, length_operationCells]) h
  have hback := hcells.map (mirrorCell width)
  rw [map_map, show mirrorCell width ∘ mirrorCell width = id from funext mirrorCell_mirrorCell,
    map_id] at hback
  rw [canonicalizeOperation_eq, ← h', hpiece, mirrorPiece_mirrorPiece,
    operationFromCells_congr _ hback]

/-! ## Pages and texts -/

theorem mirrorPage_mirrorPage {page mirrored back : Ctk3Page} (hpage : CanonicalPage page)
    (h : mirrorPage width page = .ok mirrored) (h' : mirrorPage width mirrored = .ok back) :
    back = page := by
  obtain ⟨operation, hoperation, h⟩ := bind_eq_ok.mp h
  cases h
  obtain ⟨operation', hoperation', h'⟩ := bind_eq_ok.mp h'
  cases h'
  have hcells : mirrorRows width (page.cells.length / width)
      (mirrorRows width (page.cells.length / width) page.cells) = page.cells :=
    mirrorRows_mirrorRows (Nat.div_mul_le_self _ _)
  have hgarbage : (page.garbage.map mirrorRow).map mirrorRow = page.garbage := by
    rw [Option.map_map, show mirrorRow ∘ mirrorRow = id from funext mirrorRow_mirrorRow,
      Option.map_id, id]
  have hback : operation' = page.operation := by
    cases hcase : page.operation with
    | none =>
      rw [hcase] at hoperation
      cases hoperation
      exact (Except.ok.inj hoperation').symm
    | some source =>
      rw [hcase, Option.mapM_some, map_eq_pure_bind, bind_eq_ok] at hoperation
      obtain ⟨once, honce, hoperation⟩ := hoperation
      cases hoperation
      rw [Option.mapM_some, map_eq_pure_bind, bind_eq_ok] at hoperation'
      obtain ⟨twice, htwice, hoperation'⟩ := hoperation'
      cases hoperation'
      rw [← mirrorOperation_mirrorOperation honce htwice, (hpage source hcase).2]
  simp only [length_mirrorRows, hcells, hgarbage, hback]

end

variable {b : Build}

/-- What a transform returns decodes to the document it was made from. -/
theorem decode_of_encodeChecked {document : Ctk3Document} {text : String}
    (h : encodeChecked b document = .ok text) : decodeCtk3Exact b text = .ok document := by
  simp only [encodeChecked, bind_eq_ok, mapError_eq_ok] at h
  obtain ⟨_, -, encoded, -, _, -, decoded, hdecoded, _, hsame, h⟩ := h
  cases h
  rw [hdecoded, not_not.mp (refuseIf_eq_ok.mp hsame)]

theorem mirror_eq_ok {source text : String} (h : mirror b source = .ok text) :
    ∃ document pages, decodeCtk3Exact b source = .ok document ∧
      document.pages.mapM (mirrorPage document.width) = .ok pages ∧
      decodeCtk3Exact b text = .ok ⟨document.width, pages⟩ := by
  obtain ⟨document, hdocument, h⟩ := bind_eq_ok.mp h
  obtain ⟨pages, hpages, h⟩ := bind_eq_ok.mp h
  obtain ⟨_, -, hdocument⟩ := bind_eq_ok.mp hdocument
  obtain ⟨decoded, hdecoded, hdocument⟩ := bind_eq_ok.mp hdocument
  obtain ⟨_, -, hdocument⟩ := bind_eq_ok.mp hdocument
  cases hdocument
  exact ⟨document, pages, mapError_eq_ok.mp hdecoded, hpages, decode_of_encodeChecked h⟩

/-- Mirroring a text twice gives a text of the document it was. -/
theorem mirror_mirror (s t u : String) (hst : mirror .native s = .ok t)
    (htu : mirror .native t = .ok u) :
    decodeCtk3Exact .native u = decodeCtk3Exact .native s := by
  obtain ⟨document, pages, hs, hpages, ht⟩ := mirror_eq_ok hst
  obtain ⟨mirrored, back, ht', hback, hu⟩ := mirror_eq_ok htu
  cases ht.symm.trans ht'
  have hcanonical : ∀ page ∈ document.pages, CanonicalPage page := by
    rw [native_eq_checked s] at hs
    exact (agrees_decodeCtk3Exact (.refl wider_native.toChecked) s).yields.result hs
  have hsame : back = document.pages := eq_of_mapM_mapM
    (fun page hpage _ _ => mirrorPage_mirrorPage (hcanonical page hpage)) hpages hback
  rw [hu, hs, hsame]

/-- Twice a left-turned L over a garbage row; the second page comes back as a repeat. -/
theorem mirror_mirror_L :
    mirror .native "ctk3_wxkEJjMRJU2HyCOKezpEHlERRA" = .ok "ctk3_wxoECAzGUOyxEfJGaEOL" ∧
      mirror .native "ctk3_wxoECAzGUOyxEfJGaEOL" = .ok "ctk3_wxoECIyJKOnRIXKPaCVF" ∧
      decodeCtk3Exact .native "ctk3_wxoECIyJKOnRIXKPaCVF" =
        decodeCtk3Exact .native "ctk3_wxkEJjMRJU2HyCOKezpEHlERRA" :=
  have hst : mirror .native "ctk3_wxkEJjMRJU2HyCOKezpEHlERRA" = .ok "ctk3_wxoECAzGUOyxEfJGaEOL" := by
    decide +kernel
  have htu : mirror .native "ctk3_wxoECAzGUOyxEfJGaEOL" = .ok "ctk3_wxoECIyJKOnRIXKPaCVF" := by
    decide +kernel
  ⟨hst, htu, mirror_mirror _ _ _ hst htu⟩

end Clearra.Proof.Ctk3
