import Clearra.Executor.Catalog
import Clearra.Proof.Executor.Rows

/-!
# What the projection enumeration lists

A standard shape occupies consecutive local rows, so a projection is a strictly increasing list of
target rows, one per local row, and everything strictly between two of them must be deleted. The
recursion of `enumerate_row_projections` prunes such lists in four ways — room for the rest of the
shape, the clear-row domain, the early row filter, the column count — and the leaf decides. The
pruning only removes what the leaf would reject: `mem_enumerate_iff` describes the output without
mentioning the recursion or the filter.
-/

namespace Clearra.Proof.Executor

open Clearra.Executor Lib ProjectionContext ProjectionRowFilter List

/-! ## Shapes -/

/-- The number of rows a shape occupies. -/
def shapeHeight (piece : PieceKind) (rotation : RotationState) : Nat :=
  (localRows (shapeCells piece rotation)).length

theorem localRows_shapeCells (piece : PieceKind) (rotation : RotationState) :
    localRows (shapeCells piece rotation) = List.range (shapeHeight piece rotation) := by
  cases piece <;> cases rotation <;> decide

theorem shapeHeight_bounds (piece : PieceKind) (rotation : RotationState) :
    0 < shapeHeight piece rotation ∧ shapeHeight piece rotation ≤ 4 := by
  cases piece <;> cases rotation <;> decide

theorem nodup_shapeCells (piece : PieceKind) (rotation : RotationState) :
    (shapeCells piece rotation).Nodup := by
  cases piece <;> cases rotation <;> decide

variable {piece : PieceKind} {rotation : RotationState}

/-- The occupied rows are exactly the first `shapeHeight` ones. -/
theorem exists_shapeCell_y_iff {i : Nat} :
    (∃ c ∈ shapeCells piece rotation, c.y = i) ↔ i < shapeHeight piece rotation := by
  rw [← mem_range, ← localRows_shapeCells, localRows, mem_sortDedup, mem_map]

theorem shapeCell_y_lt {c : ShapeCell} (h : c ∈ shapeCells piece rotation) :
    c.y < shapeHeight piece rotation :=
  exists_shapeCell_y_iff.mp ⟨c, h, rfl⟩

theorem shapeCell_x_lt {c : ShapeCell} (h : c ∈ shapeCells piece rotation) :
    c.x < shapeWidth (shapeCells piece rotation) := by
  revert c
  cases piece <;> cases rotation <;> decide

theorem exists_shapeCell_x_last (piece : PieceKind) (rotation : RotationState) :
    ∃ c ∈ shapeCells piece rotation, c.x + 1 = shapeWidth (shapeCells piece rotation) := by
  cases piece <;> cases rotation <;> decide

/-! ## The leaf -/

/-- The cell of a shape with its local rows sent to `targetRows`. -/
def projectedCell (width : Nat) (x : Int) (targetRows : List Nat) (c : ShapeCell) : Nat :=
  targetRows.getD c.y 0 * width + (x + c.x).toNat

/-- A word holding exactly the projected cells. -/
def IsProjection (width : Nat) (piece : PieceKind) (rotation : RotationState) (x : Int)
    (targetRows : List Nat) (mask : Board) : Prop :=
  ∀ k, mask.getLsbD k = true ↔
    k < 64 ∧ ∃ c ∈ shapeCells piece rotation, k = projectedCell width x targetRows c

section

variable {width : Nat} {x : Int} {rows : List Nat} {c : ShapeCell}
  (hcol : 0 ≤ x + c.x ∧ x + c.x < width)
include hcol

theorem projectedCell_div (hw : 0 < width) : projectedCell width x rows c / width = rows.getD c.y 0 := by
  rw [projectedCell, Nat.mul_comm, Nat.mul_add_div hw, Nat.div_eq_of_lt (by omega), Nat.add_zero]

theorem projectedCell_lt {height : Nat} (hcells : width * height ≤ 64)
    (hrow : rows.getD c.y 0 < height) : projectedCell width x rows c < 64 := by
  have hmul : (rows.getD c.y 0 + 1) * width ≤ height * width := Nat.mul_le_mul_right _ hrow
  rw [Nat.add_mul, Nat.mul_comm height] at hmul
  unfold projectedCell
  omega

end

theorem foldlM_projected {width : Nat} {x : Int} {localRowsOf : List Nat} (targetRows : List Nat) :
    ∀ (cells : List ShapeCell) (m : Board),
      (∀ c ∈ cells, 0 ≤ x + c.x ∧ x + c.x < width) → (∀ c ∈ cells, localRowsOf.idxOf c.y = c.y) →
      ∃ m', cells.foldlM (fun (mask : Board) (cell : ShapeCell) =>
          let targetY := targetRows.getD (localRowsOf.idxOf cell.y) 0
          let targetX := x + cell.x
          if targetX < 0 ∨ targetX ≥ width then none
          else some (mask ||| bit (targetY * width + targetX.toNat))) m = some m' ∧
        ∀ k, m'.getLsbD k = true ↔ m.getLsbD k = true ∨
          k < 64 ∧ ∃ c ∈ cells, k = projectedCell width x targetRows c := by
  intro cells
  induction cells with
  | nil => intro m _ _; exact ⟨m, rfl, fun k => by simp⟩
  | cons c rest ih =>
    intro m hcols hidx
    have hc := hcols c mem_cons_self
    have hin : ¬(x + c.x < 0 ∨ x + c.x ≥ width) := by omega
    obtain ⟨m', hm', hbits⟩ := ih (m ||| bit (projectedCell width x targetRows c))
      (fun c' hc' => hcols c' (mem_cons_of_mem _ hc'))
      (fun c' hc' => hidx c' (mem_cons_of_mem _ hc'))
    refine ⟨m', ?_, fun k => ?_⟩
    · rw [foldlM_cons]
      simp only [if_neg hin, hidx c mem_cons_self, Option.bind_eq_bind, Option.bind_some]
      exact hm'
    · rw [hbits, BitVec.getLsbD_or, Bool.or_eq_true, getLsbD_bit, decide_eq_true_eq]
      simp only [mem_cons, exists_eq_or_imp]
      tauto

variable {ctx : ProjectionContext}

/-- Every column inside: the leaf always has its mask. -/
theorem projectedMask_isProjection (targetRows : List Nat)
    (hcols : ∀ c ∈ ctx.cells, 0 ≤ ctx.x + c.x ∧ ctx.x + c.x < ctx.width) :
    ∃ mask, ctx.projectedMask targetRows = some mask ∧
      IsProjection ctx.width ctx.piece ctx.rotation ctx.x targetRows mask := by
  have hidx : ∀ c ∈ ctx.cells, (localRows ctx.cells).idxOf c.y = c.y := by
    intro c hc
    have hlt := shapeCell_y_lt hc
    rw [cells, localRows_shapeCells]
    have h := nodup_range.idxOf_getElem c.y (by rw [length_range]; exact hlt)
    rwa [getElem_range] at h
  obtain ⟨mask, hmask, hbits⟩ := foldlM_projected targetRows ctx.cells 0 hcols hidx
  refine ⟨mask, hmask, fun k => ?_⟩
  rw [hbits]
  simp [cells]

theorem getLsbD_foldl_rowBits (l : List Nat) (init : Rows) (k : Nat) :
    (l.foldl (fun rows row => rows ||| rowBit row) init).getLsbD k = true ↔
      init.getLsbD k = true ∨ k < 16 ∧ k ∈ l := by
  have h := getLsbD_foldl_or rowBit (fun _ => true) k l init
  simp only [if_true] at h
  rw [h]
  refine or_congr Iff.rfl ?_
  simp only [getLsbD_rowBit, decide_eq_true_eq, true_and]
  constructor
  · rintro ⟨a, ha, rfl, hk⟩
    exact ⟨hk, ha⟩
  · rintro ⟨hk, ha⟩
    exact ⟨k, ha, rfl, hk⟩

/-- The rows strictly between consecutive target rows. -/
theorem getLsbD_requiredDeleted (ctx : ProjectionContext) (targetRows : List Nat) (r : Nat) :
    (ctx.requiredDeleted targetRows).getLsbD r = true ↔
      r < 16 ∧ ∃ i, i + 1 < shapeHeight ctx.piece ctx.rotation ∧
        targetRows.getD i 0 < r ∧ r < targetRows.getD (i + 1) 0 := by
  have hfold : ∀ (l : List Nat) (init : Rows),
      (∀ index ∈ l, 0 < index ∧ index < shapeHeight ctx.piece ctx.rotation) →
      ((l.foldl (fun rows index =>
        let localGap :=
          (localRows ctx.cells).getD index 0 - (localRows ctx.cells).getD (index - 1) 0
        let firstDeleted := targetRows.getD (index - 1) 0 + localGap
        (List.range' firstDeleted (targetRows.getD index 0 - firstDeleted)).foldl
          (fun rows row => rows ||| rowBit row) rows) init).getLsbD r = true ↔
        init.getLsbD r = true ∨ r < 16 ∧ ∃ index ∈ l,
          targetRows.getD (index - 1) 0 < r ∧ r < targetRows.getD index 0) := by
    intro l
    induction l with
    | nil => intro init _; simp
    | cons index rest ih =>
      intro init hl
      obtain ⟨hpos, hlt⟩ := hl index mem_cons_self
      have hgap : (localRows ctx.cells).getD index 0 -
          (localRows ctx.cells).getD (index - 1) 0 = 1 := by
        rw [cells, localRows_shapeCells, getD_eq_getElem?_getD,
          getD_eq_getElem?_getD, getElem?_range hlt, getElem?_range (by omega)]
        simp only [Option.getD_some]
        omega
      rw [foldl_cons, ih _ fun i hi => hl i (mem_cons_of_mem _ hi)]
      simp only [hgap, getLsbD_foldl_rowBits, mem_range'_1, mem_cons, exists_eq_or_imp]
      constructor
      · rintro ((h | ⟨h16, h1, h2⟩) | ⟨h16, h⟩)
        · exact .inl h
        · exact .inr ⟨h16, Or.inl ⟨by omega, by omega⟩⟩
        · exact .inr ⟨h16, Or.inr h⟩
      · rintro (h | ⟨h16, ⟨h1, h2⟩ | h⟩)
        · exact .inl (Or.inl h)
        · exact .inl (Or.inr ⟨h16, by omega, by omega⟩)
        · exact .inr ⟨h16, h⟩
  have hmem : ∀ index, index ∈ (List.range (localRows ctx.cells).length).drop 1 ↔
      0 < index ∧ index < shapeHeight ctx.piece ctx.rotation := by
    intro index
    rw [cells, localRows_shapeCells, length_range, range_eq_range', drop_range', mem_range'_1]
    have := shapeHeight_bounds ctx.piece ctx.rotation
    omega
  rw [requiredDeleted, hfold _ _ fun index h => (hmem index).mp h]
  constructor
  · rintro (h | ⟨h16, index, hindex, h1, h2⟩)
    · simp at h
    · obtain ⟨hpos, hlt⟩ := (hmem index).mp hindex
      refine ⟨h16, index - 1, by omega, h1, ?_⟩
      rw [Nat.sub_add_cancel hpos]
      exact h2
  · rintro ⟨h16, i, hi, h1, h2⟩
    exact .inr ⟨h16, i + 1, (hmem _).mpr ⟨by omega, hi⟩, h1, h2⟩

/-! ## Clear-row domains -/

/-- The rows a domain contains. -/
def allowsRow (domain : ClearRowDomain) (r : Nat) : Prop := domain.rows.getLsbD r = true

variable {domain : ClearRowDomain}

theorem allowsRequiredRows_iff {required : BitVec 32} :
    domain.allowsRequiredRows required = true ↔
      ∀ r, required.getLsbD r = true → allowsRow domain r := by
  rw [ClearRowDomain.allowsRequiredRows, decide_eq_true_eq, show (0 : BitVec 32) = 0#32 from rfl,
    and_eq_zero_iff]
  refine forall_congr' fun r => ?_
  constructor
  · intro h hr
    by_contra hnot
    refine h hr ?_
    rw [BitVec.getLsbD_not, decide_eq_true (BitVec.lt_of_getLsbD hr), Bool.true_and,
      Bool.not_eq_true']
    exact Bool.eq_false_iff.mpr hnot
  · intro h hr hnot
    rw [BitVec.getLsbD_not, h hr] at hnot
    simp at hnot

theorem getLsbD_below {row : Nat} (h : row ≤ 32) (k : Nat) :
    (ClearRowDomain.below row).getLsbD k = decide (k < row) := by
  unfold ClearRowDomain.below
  split
  · rw [BitVec.getLsbD_ushiftRight, BitVec.getLsbD_allOnes]
    exact decide_eq_decide.mpr (by omega)
  · have : row = 0 := by omega
    subst this
    simp

theorem allowsGap_iff {first next : Nat} (hfirst : first ≤ 32) (hnext : next ≤ 32) :
    domain.allowsGap first next = true ↔
      ∀ r, first ≤ r → r < next → allowsRow domain r := by
  rw [ClearRowDomain.allowsGap, allowsRequiredRows_iff]
  refine forall_congr' fun r => ?_
  rw [BitVec.getLsbD_and, BitVec.getLsbD_not, getLsbD_below hnext, getLsbD_below hfirst,
    Bool.and_eq_true, Bool.and_eq_true, decide_eq_true_eq, decide_eq_true_eq, Bool.not_eq_true',
    decide_eq_false_iff_not]
  constructor
  · exact fun h h1 h2 => h ⟨h2, by omega, by omega⟩
  · exact fun h ⟨h2, _, h1⟩ => h (by omega) h2

theorem isEmpty_iff : domain.isEmpty = true ↔ ∀ r, ¬allowsRow domain r := by
  rw [ClearRowDomain.isEmpty, decide_eq_true_eq]
  constructor
  · intro h r hr
    rw [allowsRow, h] at hr
    simp at hr
  · intro h
    refine BitVec.eq_of_getLsbD_eq fun r _ => ?_
    rw [Bool.eq_false_iff.mpr (h r)]
    simp

/-! ## The early filter -/

theorem getLsbD_rowColumns (cells : List ShapeCell) (x : Int) (localRow k : Nat) :
    (rowColumns cells x localRow).getLsbD k = true ↔
      k < 64 ∧ ∃ c ∈ cells, c.y = localRow ∧ k = (x + c.x).toNat := by
  have h := getLsbD_foldl_or (fun c : ShapeCell => bit (x + c.x).toNat) (fun _ => true) k
    (cells.filter fun cell => cell.y = localRow) 0
  simp only [if_true] at h
  rw [rowColumns, h]
  simp only [getLsbD_bit, decide_eq_true_eq, mem_filter, true_and]
  constructor
  · rintro (h0 | ⟨c, ⟨hc, hy⟩, hk, h64⟩)
    · simp at h0
    · exact ⟨h64, c, hc, hy, hk⟩
  · rintro ⟨h64, c, hc, hy, hk⟩
    exact .inr ⟨c, ⟨hc, hy⟩, hk, h64⟩

section Filter

variable {width height : Nat} {piece : PieceKind} {rotation : RotationState} {x : Int}

/-- The filter is there, and says yes to a row that offers the columns its shape row needs. -/
theorem compile_filter (available : Nat → Board) (hw : 0 < width ∧ width ≤ 64) (hh : 0 < height ∧ height ≤ 32)
    (hcols : ∀ c ∈ shapeCells piece rotation, 0 ≤ x + c.x ∧ x + c.x < width) :
    ∃ filter, compile width height (shapeCells piece rotation)
        (localRows (shapeCells piece rotation)) x available = some filter ∧
      (∀ i t, t < height → i < shapeHeight piece rotation →
        (∀ c ∈ shapeCells piece rotation, c.y = i →
          (available t).getLsbD (x + c.x).toNat = true) → filter.rowAllowed i t = true) ∧
      filter.columnsPossible = (List.range width).all fun column =>
        columnDemand (shapeCells piece rotation) x column ≤
          columnCapacity height available column := by
  have hbounds := shapeHeight_bounds piece rotation
  unfold compile
  rw [if_neg, if_neg, if_neg]
  · refine ⟨_, rfl, fun i t ht hi hoffer => ?_, rfl⟩
    rw [rowAllowed, decide_eq_true_eq,
      show (0 : BitVec 32) = 0#32 from rfl, and_one_shiftLeft_ne_zero_iff]
    dsimp only
    rw [localRows_shapeCells, getElem?_range hi]
    dsimp only
    have hfold := getLsbD_foldl_or (fun targetY => 1#32 <<< targetY) (fun targetY =>
      decide ((rowColumns (shapeCells piece rotation) x i &&&
        ~~~available targetY) = 0)) t (List.range height) 0#32
    simp only [decide_eq_true_eq] at hfold
    refine hfold.mpr (Or.inr ⟨t, mem_range.mpr ht, ?_, ?_⟩)
    · rw [show (0 : Board) = 0#64 from rfl, and_eq_zero_iff]
      intro k hneed hnot
      obtain ⟨-, c, hc, hy, rfl⟩ := (getLsbD_rowColumns _ _ _ _).mp hneed
      rw [BitVec.getLsbD_not, hoffer c hc hy] at hnot
      simp at hnot
    · rw [getLsbD_one_shiftLeft, decide_eq_true_eq]
      exact ⟨rfl, by omega⟩
  · rw [any_eq_true]
    rintro ⟨c, hc, hnot⟩
    rw [decide_eq_true_eq, localRows_shapeCells, mem_range] at hnot
    exact hnot (shapeCell_y_lt hc)
  · rw [any_eq_true]
    rintro ⟨c, hc, hout⟩
    rw [decide_eq_true_eq] at hout
    have := hcols c hc
    omega
  · have hsorted : (localRows (shapeCells piece rotation)).Pairwise (· < ·) :=
      pairwise_lt_sortDedup _
    have hne : localRows (shapeCells piece rotation) ≠ [] := by
      rw [localRows_shapeCells, ne_eq, range_eq_nil]
      omega
    have hlen : (localRows (shapeCells piece rotation)).length ≤
        (shapeCells piece rotation).length := by
      rw [length_shapeCells]
      exact hbounds.2
    intro h
    rcases h with h | h | h | h | h | h | h
    · omega
    · omega
    · omega
    · omega
    · exact hne h
    · omega
    · exact h hsorted

/-- A projection into available cells never runs out of a column. -/
theorem columns_suffice {available : Nat → Board} {targetRows : List Nat}
    (hlen : targetRows.length = shapeHeight piece rotation)
    (hsorted : targetRows.Pairwise (· < ·)) (hlt : ∀ t ∈ targetRows, t < height)
    (hoffer : ∀ c ∈ shapeCells piece rotation,
      (available (targetRows.getD c.y 0)).getLsbD (x + c.x).toNat = true)
    (hcols : ∀ c ∈ shapeCells piece rotation, 0 ≤ x + c.x) (column : Nat) :
    columnDemand (shapeCells piece rotation) x column ≤
      columnCapacity height available column := by
  rw [columnDemand, columnCapacity, countP_eq_length_filter, countP_eq_length_filter]
  -- the cells of one column go to different rows
  have hget : ∀ c ∈ shapeCells piece rotation, ∃ h : c.y < targetRows.length,
      targetRows.getD c.y 0 = targetRows[c.y] := by
    intro c hc
    have hy : c.y < targetRows.length := by rw [hlen]; exact shapeCell_y_lt hc
    exact ⟨hy, by rw [getD_eq_getElem _ _ hy]⟩
  have hnodup : (((shapeCells piece rotation).filter
      fun c => (x + c.x).toNat = column).map fun c => targetRows.getD c.y 0).Nodup := by
    refine List.Nodup.map_on ?_ ((nodup_shapeCells piece rotation).filter _)
    intro c hc c' hc' heq
    rw [mem_filter, decide_eq_true_eq] at hc hc'
    obtain ⟨hy, hv⟩ := hget c hc.1
    obtain ⟨hy', hv'⟩ := hget c' hc'.1
    have hrow : c.y = c'.y := by
      rw [hv, hv'] at heq
      exact (List.Nodup.getElem_inj_iff (hsorted.imp fun h => Nat.ne_of_lt h)).mp heq
    have hcol : c.x = c'.x := by
      have h1 := hcols c hc.1
      have h2 := hcols c' hc'.1
      omega
    cases c
    cases c'
    simp only at hrow hcol
    rw [hrow, hcol]
  have hsub : ((shapeCells piece rotation).filter
      fun c => (x + c.x).toNat = column).map (fun c => targetRows.getD c.y 0) ⊆
      (List.range height).filter fun row => (available row).getLsbD column := by
    intro t ht
    rw [mem_map] at ht
    obtain ⟨c, hc, rfl⟩ := ht
    rw [mem_filter, decide_eq_true_eq] at hc
    obtain ⟨hy, hv⟩ := hget c hc.1
    rw [mem_filter, mem_range]
    refine ⟨by rw [hv]; exact hlt _ (getElem_mem hy), ?_⟩
    rw [← hc.2]
    exact hoffer c hc.1
  have hle := (hnodup.subperm hsub).length_le
  rwa [length_map] at hle

end Filter

/-! ## The recursion -/

/-- The choices of the recursion, one row at a time. -/
def Extends (ctx : ProjectionContext) : List Nat → List Nat → List Nat → Prop
  | [], _, [] => True
  | localRow :: rest, assigned, t :: more =>
    (localRows ctx.cells).getLastD 0 - localRow < ctx.height ∧
      ctx.minimumRow assigned localRow ≤ t ∧ t ≤ ctx.maximumRow assigned localRow ∧
      ctx.rowAdmitted assigned localRow t = true ∧ Extends ctx rest (assigned ++ [t]) more
  | _, _, _ => False

variable {r : Realization}

theorem mem_enumerate_iff_extends :
    ∀ (rest assigned : List Nat), r ∈ ctx.enumerateRowProjections rest assigned ↔
      ∃ more, Extends ctx rest assigned more ∧ r ∈ ctx.leaf (assigned ++ more) := by
  intro rest
  induction rest with
  | nil =>
    intro assigned
    rw [enumerateRowProjections]
    constructor
    · intro h
      exact ⟨[], trivial, by rw [append_nil]; exact h⟩
    · rintro ⟨more, hext, hleaf⟩
      cases more with
      | nil => rwa [append_nil] at hleaf
      | cons t more => exact absurd hext (by simp [Extends])
  | cons localRow rest ih =>
    intro assigned
    rw [enumerateRowProjections]
    dsimp only
    constructor
    · intro h
      split at h
      · exact absurd h not_mem_nil
      · rename_i hspan
        rw [mem_flatMap] at h
        obtain ⟨t, ht, h⟩ := h
        rw [mem_range'_1] at ht
        split at h
        · rename_i hadmit
          obtain ⟨more, hext, hleaf⟩ := (ih _).mp h
          refine ⟨t :: more, ⟨by omega, ht.1, by omega, hadmit, hext⟩, ?_⟩
          rwa [append_assoc] at hleaf
        · exact absurd h not_mem_nil
    · rintro ⟨more, hext, hleaf⟩
      cases more with
      | nil => exact absurd hext (by simp [Extends])
      | cons t more =>
        obtain ⟨hspan, hmin, hmax, hadmit, hext⟩ := hext
        rw [if_neg (by omega), mem_flatMap]
        refine ⟨t, mem_range'_1.mpr ⟨hmin, by omega⟩, ?_⟩
        rw [if_pos hadmit]
        refine (ih _).mpr ⟨more, hext, ?_⟩
        rwa [append_assoc]

theorem minimumRow_eq (ctx : ProjectionContext) (assigned : List Nat)
    (h : assigned.length < shapeHeight ctx.piece ctx.rotation) :
    ctx.minimumRow assigned assigned.length =
      if assigned.length = 0 then 0 else assigned.getD (assigned.length - 1) 0 + 1 := by
  unfold minimumRow
  dsimp only
  split
  · assumption
  · rename_i hne
    rw [cells, localRows_shapeCells, getD_eq_getElem?_getD (l := List.range _),
      getElem?_range (by omega), Option.getD_some]
    omega

theorem getLastD_localRows (ctx : ProjectionContext) :
    (localRows ctx.cells).getLastD 0 = shapeHeight ctx.piece ctx.rotation - 1 := by
  have hpos := (shapeHeight_bounds ctx.piece ctx.rotation).1
  rw [cells, localRows_shapeCells]
  generalize shapeHeight ctx.piece ctx.rotation = n at hpos
  cases n with
  | zero => omega
  | succ n => simp [range_succ]

theorem le_last_of_pairwise {l : List Nat} (h : l.Pairwise (· < ·)) {a : Nat} (ha : a ∈ l) :
    a ≤ l.getD (l.length - 1) 0 := by
  obtain ⟨i, hi, rfl⟩ := mem_iff_getElem.mp ha
  rw [getD_eq_getElem _ _ (by omega)]
  rcases Nat.lt_or_ge i (l.length - 1) with hlt | hge
  · exact (pairwise_iff_getElem.mp h i (l.length - 1) hi (by omega) hlt).le
  · have : i = l.length - 1 := by omega
    subst this
    exact Nat.le_refl _

/-- What the recursion chooses is strictly increasing and on the board. -/
theorem Extends.sorted : ∀ (n : Nat) (assigned more : List Nat),
    assigned.length + n = shapeHeight ctx.piece ctx.rotation → assigned.Pairwise (· < ·) →
    Extends ctx (List.range' assigned.length n) assigned more →
    more.length = n ∧ (assigned ++ more).Pairwise (· < ·) ∧ ∀ t ∈ more, t < ctx.height := by
  intro n
  induction n with
  | zero =>
    intro assigned more _ hsorted hext
    cases more with
    | nil => exact ⟨rfl, by rwa [append_nil], by simp⟩
    | cons t more => exact absurd hext (by simp [Extends])
  | succ n ih =>
    intro assigned more hlen hsorted hext
    rw [range'_succ] at hext
    cases more with
    | nil => exact absurd hext (by simp [Extends])
    | cons t more =>
      obtain ⟨hspan, hmin, hmax, -, hext⟩ := hext
      rw [minimumRow_eq _ _ (by omega)] at hmin
      have hbelow : ∀ a ∈ assigned, a < t := by
        intro a ha
        have hle := le_last_of_pairwise hsorted ha
        have hne : assigned.length ≠ 0 := by
          rw [ne_eq, length_eq_zero_iff]
          rintro rfl
          exact absurd ha not_mem_nil
        rw [if_neg hne] at hmin
        omega
      have hsorted' : (assigned ++ [t]).Pairwise (· < ·) := by
        rw [pairwise_append]
        refine ⟨hsorted, pairwise_singleton _ _, fun a ha b hb => ?_⟩
        rw [mem_singleton] at hb
        rw [hb]
        exact hbelow a ha
      have ht : t < ctx.height := by
        have hmax' : t ≤ ctx.height - 1 - ((localRows ctx.cells).getLastD 0 - assigned.length) := by
          unfold maximumRow at hmax
          dsimp only at hmax
          split at hmax
          · exact hmax.trans (Nat.min_le_right _ _)
          · exact hmax
        omega
      have hlen' : (assigned ++ [t]).length = assigned.length + 1 := by simp
      obtain ⟨h1, h2, h3⟩ := ih (assigned ++ [t]) more (by rw [hlen']; omega) hsorted'
        (by rw [hlen']; exact hext)
      refine ⟨by rw [length_cons, h1], ?_, ?_⟩
      · rwa [append_assoc] at h2
      · intro a ha
        rcases mem_cons.mp ha with rfl | ha
        · exact ht
        · exact h3 a ha

theorem head_add_length_lt {h : Nat} : ∀ (l : List Nat) {t : Nat}, (t :: l).Pairwise (· < ·) →
    (∀ a ∈ t :: l, a < h) → t + l.length < h := by
  intro l
  induction l with
  | nil => intro t _ hlt; simpa using hlt t mem_cons_self
  | cons a rest ih =>
    intro t hsorted hlt
    rw [pairwise_cons] at hsorted
    have hta := hsorted.1 a mem_cons_self
    have hrec := ih hsorted.2 fun b hb => hlt b (mem_cons_of_mem _ hb)
    rw [length_cons]
    omega

/-- The recursion chooses every strictly increasing list whose gaps may be cleared and whose rows
    the filter lets through. -/
theorem Extends.of_sorted {rows : List Nat} (hh : ctx.height ≤ 16)
    (hlen : rows.length = shapeHeight ctx.piece ctx.rotation) (hsorted : rows.Pairwise (· < ·))
    (hlt : ∀ t ∈ rows, t < ctx.height)
    (hgaps : ∀ i r, i + 1 < rows.length → rows.getD i 0 < r → r < rows.getD (i + 1) 0 →
      allowsRow ctx.clearRows r)
    (hfilter : ∀ filter, ctx.rowFilter = some filter → ∀ i, i < rows.length →
      filter.rowAllowed i (rows.getD i 0) = true) :
    ∀ (n j : Nat), j + n = rows.length →
      Extends ctx (List.range' j n) (rows.take j) (rows.drop j) := by
  intro n
  induction n with
  | zero =>
    intro j hj
    rw [drop_of_length_le (by omega)]
    trivial
  | succ n ih =>
    intro j hj
    have hjlt : j < rows.length := by omega
    have htake : (rows.take j).length = j := by rw [length_take]; omega
    have hget : rows.getD j 0 = rows[j] := by
      rw [getD_eq_getElem _ _ hjlt]
    have hlast : (rows.take j).getD (j - 1) 0 = rows.getD (j - 1) 0 ∨ j = 0 := by
      rcases Nat.eq_zero_or_pos j with h0 | h0
      · exact .inr h0
      · refine .inl ?_
        rw [getD_eq_getElem?_getD, getD_eq_getElem?_getD, getElem?_take_of_lt (by omega)]
    -- the row before, if any, is smaller
    have hprev : j ≠ 0 → rows.getD (j - 1) 0 < rows[j] := by
      intro h0
      rw [getD_eq_getElem _ _ (by omega)]
      exact pairwise_iff_getElem.mp hsorted (j - 1) j (by omega) hjlt (by omega)
    have hmin : ctx.minimumRow (rows.take j) j =
        if j = 0 then 0 else rows.getD (j - 1) 0 + 1 := by
      have h := minimumRow_eq ctx (rows.take j) (by rw [htake]; omega)
      rw [htake] at h
      rw [h]
      split
      · rfl
      · rename_i h0
        rw [hlast.resolve_right h0]
    have hroom : rows[j] + (rows.length - j - 1) < ctx.height := by
      have hdrop : rows.drop j = rows[j] :: rows.drop (j + 1) := drop_eq_getElem_cons hjlt
      have h := head_add_length_lt (h := ctx.height) (rows.drop (j + 1)) (t := rows[j])
        (by rw [← hdrop]; exact hsorted.drop) fun a ha => by
          rw [← hdrop] at ha
          exact hlt a (mem_of_mem_drop ha)
      rw [length_drop] at h
      omega
    have hgap : ∀ r, ctx.minimumRow (rows.take j) j ≤ r → r < rows[j] → j ≠ 0 →
        allowsRow ctx.clearRows r := by
      intro r h1 h2 h0
      rw [hmin, if_neg h0] at h1
      refine hgaps (j - 1) r (by omega) (by omega) ?_
      rw [Nat.sub_add_cancel (by omega), hget]
      exact h2
    rw [range'_succ, drop_eq_getElem_cons hjlt]
    refine ⟨?_, ?_, ?_, ?_, ?_⟩
    · rw [getLastD_localRows]
      omega
    · rw [hmin]
      split
      · omega
      · exact hprev (by assumption)
    · unfold maximumRow
      rw [getLastD_localRows, htake]
      dsimp only
      split
      · -- nothing may be cleared, so there is no gap
        rename_i hempty
        have hempty' := isEmpty_iff.mp hempty.2
        refine Nat.le_min.mpr ⟨?_, by omega⟩
        by_contra hgt
        exact hempty' _ (hgap _ (Nat.le_refl _) (by omega) hempty.1)
      · omega
    · unfold rowAdmitted
      rw [htake, Bool.and_eq_true]
      constructor
      · rw [Bool.not_eq_true', Bool.and_eq_false_iff]
        by_cases h0 : j = 0
        · exact .inl (by simp [h0])
        · refine .inr ?_
          rw [Bool.not_eq_false', allowsGap_iff]
          · exact fun r h1 h2 => hgap r h1 h2 h0
          · rw [hmin, if_neg h0]
            have := hprev h0
            omega
          · omega
      · cases hf : ctx.rowFilter with
        | none => rfl
        | some filter =>
          have h := hfilter filter hf j hjlt
          rwa [hget] at h
    · have h := ih (j + 1) (by omega)
      rwa [take_succ_eq_append_getElem hjlt] at h

/-! ## The enumeration, described -/

/-- A realization that the target admits: its rows are assigned to increasing target rows, the rows
    in between may be cleared, and its cells are required and not there initially. -/
structure IsRealization (width height : Nat) (initialBoard requiredCells : Board)
    (clearRows : ClearRowDomain) (r : Realization) (rows : List Nat) : Prop where
  cols : ∀ c ∈ shapeCells r.piece r.rotation, 0 ≤ r.x + c.x ∧ r.x + c.x < width
  length : rows.length = shapeHeight r.piece r.rotation
  sorted : rows.Pairwise (· < ·)
  lt : ∀ t ∈ rows, t < height
  deleted : ∀ t, r.requiredDeletedRows.getLsbD t = true ↔
    ∃ i, i + 1 < rows.length ∧ rows.getD i 0 < t ∧ t < rows.getD (i + 1) 0
  allowed : ∀ t, r.requiredDeletedRows.getLsbD t = true → allowsRow clearRows t
  cells : IsProjection width r.piece r.rotation r.x rows r.cells
  required : ∀ k, r.cells.getLsbD k = true → requiredCells.getLsbD k = true
  fresh : ∀ k, r.cells.getLsbD k = true → initialBoard.getLsbD k = false
  anchor : r.targetAnchorY = rows.getD 0 0

theorem mem_leaf_iff {targetRows : List Nat}
    (hcols : ∀ c ∈ ctx.cells, 0 ≤ ctx.x + c.x ∧ ctx.x + c.x < ctx.width) :
    r ∈ ctx.leaf targetRows ↔ ∃ mask,
      IsProjection ctx.width ctx.piece ctx.rotation ctx.x targetRows mask ∧
      (∀ k, mask.getLsbD k = true → ctx.initialBoard.getLsbD k = false) ∧
      (∀ k, mask.getLsbD k = true → ctx.requiredCells.getLsbD k = true) ∧
      (∀ t, (ctx.requiredDeleted targetRows).getLsbD t = true → allowsRow ctx.clearRows t) ∧
      r = ⟨ctx.piece, mask, ctx.requiredDeleted targetRows, ctx.rotation, ctx.x,
        targetRows.getD 0 0⟩ := by
  obtain ⟨mask, hmask, hproj⟩ := projectedMask_isProjection targetRows hcols
  have hunique : ∀ mask', IsProjection ctx.width ctx.piece ctx.rotation ctx.x targetRows mask' →
      mask' = mask := by
    intro mask' hproj'
    refine BitVec.eq_of_getLsbD_eq fun k _ => ?_
    rw [Bool.eq_iff_iff, hproj' k, hproj k]
  have hinit : (mask &&& ctx.initialBoard) = 0 ↔
      ∀ k, mask.getLsbD k = true → ctx.initialBoard.getLsbD k = false := by
    rw [show (0 : Board) = 0#64 from rfl, and_eq_zero_iff]
    exact forall_congr' fun k => imp_congr_right fun _ =>
      ⟨fun h => Bool.eq_false_iff.mpr h, fun h h' => absurd h' (by rw [h]; simp)⟩
  have hreq : (mask &&& ~~~ctx.requiredCells) = 0 ↔
      ∀ k, mask.getLsbD k = true → ctx.requiredCells.getLsbD k = true := by
    rw [show (0 : Board) = 0#64 from rfl, and_eq_zero_iff]
    refine forall_congr' fun k => imp_congr_right fun hk => ?_
    rw [BitVec.getLsbD_not, decide_eq_true (BitVec.lt_of_getLsbD hk), Bool.true_and,
      Bool.not_eq_true']
    cases ctx.requiredCells.getLsbD k <;> simp
  have hallow : ctx.clearRows.allowsRequiredRows ((ctx.requiredDeleted targetRows).setWidth 32) =
      true ↔ ∀ t, (ctx.requiredDeleted targetRows).getLsbD t = true →
        allowsRow ctx.clearRows t := by
    rw [allowsRequiredRows_iff]
    refine forall_congr' fun t => ?_
    rw [BitVec.getLsbD_setWidth, Bool.and_eq_true, decide_eq_true_eq]
    constructor
    · intro h ht
      have := BitVec.lt_of_getLsbD ht
      exact h ⟨by omega, ht⟩
    · exact fun h ht => h ht.2
  rw [leaf, hmask]
  dsimp only
  constructor
  · intro h
    split at h
    · exact absurd h not_mem_nil
    · rename_i hout
      rw [not_or, not_not, not_not] at hout
      split at h
      · exact absurd h not_mem_nil
      · rename_i hno
        rw [Bool.not_eq_false] at hno
        exact ⟨mask, hproj, hinit.mp hout.1, hreq.mp hout.2, hallow.mp hno, mem_singleton.mp h⟩
  · rintro ⟨mask', hproj', h1, h2, h3, rfl⟩
    obtain rfl := hunique mask' hproj'
    rw [if_neg (by rw [not_or, not_not, not_not]; exact ⟨hinit.mpr h1, hreq.mpr h2⟩),
      if_neg (by rw [hallow.mpr h3]; simp)]
    exact mem_singleton_self _

section Enumeration

variable {width height : Nat} {initialBoard requiredCells : Board} {clearRows : ClearRowDomain}

/-- The cells the filter is told about. -/
def availableRow (width : Nat) (initialBoard requiredCells : Board) (row : Nat) : Board :=
  boardRow width (requiredCells &&& ~~~initialBoard) row

/-- An admissible realization's cells are offered, row by row. -/
theorem IsRealization.offered {rows : List Nat} (hw : width ≤ 64) (hcells : width * height ≤ 64)
    (h : IsRealization width height initialBoard requiredCells clearRows r rows) :
    ∀ c ∈ shapeCells r.piece r.rotation,
      (availableRow width initialBoard requiredCells (rows.getD c.y 0)).getLsbD
        (r.x + c.x).toNat = true := by
  intro c hc
  obtain ⟨hx0, hxw⟩ := h.cols c hc
  have hy : c.y < rows.length := by rw [h.length]; exact shapeCell_y_lt hc
  have hrow : rows.getD c.y 0 < height := by
    rw [getD_eq_getElem _ _ hy]
    exact h.lt _ (getElem_mem hy)
  have h64 := projectedCell_lt (h.cols c hc) hcells hrow
  have hset : r.cells.getLsbD (projectedCell width r.x rows c) = true :=
    (h.cells _).mpr ⟨h64, c, hc, rfl⟩
  have hfresh := h.fresh _ hset
  rw [availableRow, getLsbD_boardRow hw, Bool.and_eq_true, decide_eq_true_eq]
  refine ⟨by omega, ?_⟩
  rw [BitVec.getLsbD_and, Bool.and_eq_true, BitVec.getLsbD_not]
  refine ⟨h.required _ hset, ?_⟩
  rw [projectedCell] at hfresh h64
  rw [hfresh, decide_eq_true h64]
  rfl

theorem exists_isRealization (hh : height ≤ 16)
    (h : r ∈ enumerateRealizations width height initialBoard requiredCells clearRows) :
    ∃ rows, IsRealization width height initialBoard requiredCells clearRows r rows := by
  rw [enumerateRealizations, mem_flatMap] at h
  obtain ⟨piece, -, hr⟩ := h
  rw [mem_flatMap] at hr
  obtain ⟨rotation, -, hr⟩ := hr
  dsimp only at hr
  split at hr
  · exact absurd hr not_mem_nil
  · rename_i hfit
    rw [mem_flatMap] at hr
    obtain ⟨x, hx, hr⟩ := hr
    rw [mem_range] at hx
    split at hr
    · exact absurd hr not_mem_nil
    · -- the columns fit by the choice of `x`
      have hcols : ∀ c ∈ shapeCells piece rotation,
          0 ≤ ((x : Nat) : Int) + c.x ∧ ((x : Nat) : Int) + c.x < width := by
        intro c hc
        have := shapeCell_x_lt hc
        omega
      obtain ⟨rows, hext, hleaf⟩ := (mem_enumerate_iff_extends _ _).mp hr
      rw [nil_append] at hleaf
      rw [localRows_shapeCells, range_eq_range'] at hext
      obtain ⟨hlen, hsorted, hlt⟩ := Extends.sorted (shapeHeight piece rotation) [] rows
        (Nat.zero_add _) List.Pairwise.nil hext
      obtain ⟨mask, hproj, hinit, hreq, hallow, rfl⟩ := (mem_leaf_iff (by exact hcols)).mp hleaf
      refine ⟨rows, hcols, hlen, hsorted, hlt, fun t => ?_, hallow, hproj, hreq, hinit, rfl⟩
      rw [getLsbD_requiredDeleted]
      dsimp only
      constructor
      · rintro ⟨-, i, hi, h1, h2⟩
        exact ⟨i, by omega, h1, h2⟩
      · rintro ⟨i, hi, h1, h2⟩
        refine ⟨?_, i, by omega, h1, h2⟩
        rw [getD_eq_getElem _ _ hi] at h2
        have := hlt _ (getElem_mem hi)
        simp only at this
        omega

variable (hw : 0 < width ∧ width ≤ 64) (hh : 0 < height ∧ height ≤ 16) (hcells : width * height ≤ 64)
include hw hh hcells

theorem IsRealization.mem
    (h : IsRealization width height initialBoard requiredCells clearRows r rows) :
    r ∈ enumerateRealizations width height initialBoard requiredCells clearRows := by
  rw [enumerateRealizations, mem_flatMap]
  obtain ⟨piece, mask, deleted, rotation, x, anchor⟩ := r
  refine ⟨piece, PieceKind.mem_standardTetrominoes piece, mem_flatMap.mpr
    ⟨rotation, RotationState.mem_all rotation, ?_⟩⟩
  have hoffer := h.offered hw.2 hcells
  obtain ⟨hcols, hlen, hsorted, hlt, hdel, hallow, hproj, hreq, hinit, hanchor⟩ := h
  dsimp only at hcols hlen hdel hallow hproj hreq hinit hanchor hoffer
  -- the column is in the enumerated range
  obtain ⟨c0, hc0, hx0⟩ := exists_shapeCell_x_zero piece rotation
  obtain ⟨cl, hcl, hxl⟩ := exists_shapeCell_x_last piece rotation
  have hxnonneg : 0 ≤ x := by
    have := (hcols c0 hc0).1
    rw [hx0] at this
    simpa using this
  obtain ⟨n, rfl⟩ := Int.eq_ofNat_of_zero_le hxnonneg
  have hxlast := (hcols cl hcl).2
  dsimp only
  rw [if_neg (by omega), mem_flatMap]
  refine ⟨n, mem_range.mpr (by omega), ?_⟩
  obtain ⟨filter, hfilter, hallowed, hpossible⟩ := compile_filter
    (availableRow width initialBoard requiredCells) hw ⟨hh.1, by omega⟩ hcols
  have hcolumns : filter.columnsPossible = true := by
    rw [hpossible, all_eq_true]
    intro column _
    exact decide_eq_true (columns_suffice hlen hsorted hlt hoffer (fun c hc => (hcols c hc).1)
      column)
  rw [show (fun row => boardRow width (requiredCells &&& ~~~initialBoard) row) =
    availableRow width initialBoard requiredCells from rfl, hfilter]
  obtain ⟨allowedRows, possible⟩ := filter
  dsimp only at hcolumns
  subst hcolumns
  dsimp only
  let ctx : ProjectionContext := ⟨width, height, initialBoard, requiredCells, piece, rotation, n,
    some ⟨allowedRows, true⟩, clearRows⟩
  have hdeleted : ctx.requiredDeleted rows = deleted := by
    refine BitVec.eq_of_getLsbD_eq fun t ht => ?_
    rw [Bool.eq_iff_iff, getLsbD_requiredDeleted, hdel]
    constructor
    · rintro ⟨-, i, hi, h1, h2⟩
      exact ⟨i, by rw [hlen]; exact hi, h1, h2⟩
    · rintro ⟨i, hi, h1, h2⟩
      exact ⟨ht, i, by rw [hlen] at hi; exact hi, h1, h2⟩
  have hext : Extends ctx (List.range' 0 rows.length) (rows.take 0) (rows.drop 0) := by
    refine Extends.of_sorted hh.2 hlen hsorted hlt ?_ ?_ rows.length 0 (Nat.zero_add _)
    · exact fun i t hi h1 h2 => hallow t ((hdel t).mpr ⟨i, hi, h1, h2⟩)
    · intro filter hf i hi
      cases hf
      have hval : rows.getD i 0 = rows[i] := by
        rw [getD_eq_getElem _ _ hi]
      refine hallowed i _ (by rw [hval]; exact hlt _ (getElem_mem hi)) (by omega) ?_
      intro c hc hy
      subst hy
      exact hoffer c hc
  refine (show _ ∈ ctx.enumerateRowProjections _ _ from
    (mem_enumerate_iff_extends _ _).mpr ⟨rows, ?_, ?_⟩)
  · rw [localRows_shapeCells, range_eq_range', ← hlen]
    exact hext
  · rw [nil_append]
    refine (mem_leaf_iff (by exact hcols)).mpr ⟨mask, hproj, hinit, hreq, ?_, ?_⟩
    · rw [hdeleted]
      exact hallow
    · rw [hdeleted, hanchor]

/-- **The enumeration lists exactly the admissible realizations.** -/
theorem mem_enumerateRealizations :
    r ∈ enumerateRealizations width height initialBoard requiredCells clearRows ↔
      ∃ rows, IsRealization width height initialBoard requiredCells clearRows r rows :=
  ⟨exists_isRealization hh.2, fun ⟨_, h⟩ => h.mem hw hh hcells⟩

end Enumeration

end Clearra.Proof.Executor
