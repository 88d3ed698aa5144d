import Clearra.Proof.Executor.Catalog
import Clearra.Proof.Executor.Compaction

/-!
# Boards do not depend on the order

In the target's frame placing a piece is a union, and unions commute; what has to be shown is that
the board as it stands is a function of that union. It is: the rows `expected_deleted_rows` computes
from contributor masks are exactly the rows the union fills (`expectedDeletedRows_eq`), so a
projected state is the union, cleared, and locking on a cleared board and clearing again is
clearing the larger union (`lock_step`). Order then never enters — `lockRun_state`.
-/

namespace Clearra.Proof.Executor

open Clearra.Executor Lib List Nat

/-! ## Candidates -/

/-- Disjoint rows that cover the required cells, with a piece in every row the target completes. -/
structure IsTiling (width height : Nat) (initialBoard requiredCells : Board)
    {catalog : GeometryCatalog} (candidate : GeometryCandidate catalog) : Prop where
  disjoint : ∀ {i j : Nat} {row row' : SkeletonRow}, candidate.row? i = some row →
    candidate.row? j = some row' → i ≠ j →
    ∀ k, row.cells.getLsbD k = true → row'.cells.getLsbD k = false
  covers : ∀ k, requiredCells.getLsbD k = true ↔
    ∃ i row, candidate.row? i = some row ∧ row.cells.getLsbD k = true
  contributor : ∀ r, r < height →
    boardRow width (initialBoard ||| requiredCells) r = fullRowMask width →
    ∃ k, requiredCells.getLsbD k = true ∧ k / width = r

section

variable {catalog : GeometryCatalog} {candidate : GeometryCandidate catalog}

theorem rows_eq_map (candidate : GeometryCandidate catalog) :
    candidate.rows.length = candidate.rowIds.length ∧
      ∀ i, candidate.rows[i]? = candidate.row? i := by
  -- no row identifier is dropped, because all are valid
  have h : ∀ ids : List Nat, (∀ id ∈ ids, id < catalog.skeletons.length) →
      (ids.filterMap (catalog.skeletons[·]?)).length = ids.length ∧
        ∀ i : Nat, (ids.filterMap (catalog.skeletons[·]?))[i]? =
          ids[i]?.bind (catalog.skeletons[·]?) := by
    intro ids
    induction ids with
    | nil => intro _; exact ⟨rfl, fun i => by simp⟩
    | cons id rest ih =>
      intro hvalid
      obtain ⟨hlen, hget⟩ := ih fun id' hid' => hvalid id' (mem_cons_of_mem id hid')
      have hid := getElem?_eq_getElem (hvalid id mem_cons_self)
      rw [filterMap_cons_some hid]
      refine ⟨by rw [length_cons, hlen, length_cons], fun i => ?_⟩
      cases i with
      | zero => simp [hid]
      | succ i => simpa using hget i
  exact h candidate.rowIds candidate.valid

/-- The projection of a candidate. -/
structure Projects (catalog : GeometryCatalog) (candidate : GeometryCandidate catalog)
    (p : CandidateProjection) : Prop where
  count_le : candidate.rowIds.length ≤ 15
  cells_eq : p.operationCells = candidate.rows.map SkeletonRow.cells
  contributors_eq : p.rowContributors =
    CandidateProjection.contributors catalog.width p.operationCells
  width_eq : p.width = catalog.width
  height_eq : p.height = catalog.height
  initial_eq : p.initialBoard = catalog.initialBoard
  completed_eq : p.completedTargetRows = CandidateProjection.fullRows catalog.width catalog.height
    (p.operationCells.foldl (· ||| ·) catalog.initialBoard)

variable {p : CandidateProjection}

theorem compile_projects {states : Stamped (Board × Rows)}
    (h : CandidateProjection.compile catalog candidate states = .ok p) :
    Projects catalog candidate p ∧ 0 < candidate.rowIds.length ∧
      p.states = states.fresh (2 ^ candidate.rowIds.length) (0, 0) := by
  rw [CandidateProjection.compile] at h
  dsimp only at h
  split at h
  · simp at h
  rename_i hcount
  split at h
  · simp at h
  rw [Except.ok.injEq] at h
  subst h
  rw [maxBoard64Pieces] at hcount
  exact ⟨⟨by omega, rfl, rfl, rfl, rfl, rfl, rfl⟩, by omega, rfl⟩

theorem Projects.cells (h : Projects catalog candidate p) (i : Nat) :
    p.operationCells[i]? = (candidate.row? i).map SkeletonRow.cells := by
  rw [h.cells_eq, getElem?_map, (rows_eq_map candidate).2]

theorem Projects.operationCount (h : Projects catalog candidate p) :
    p.operationCount = candidate.rowIds.length := by
  rw [CandidateProjection.operationCount, h.cells_eq, length_map, (rows_eq_map candidate).1]

theorem row?_lt {i : Nat} {row : SkeletonRow} (h : candidate.row? i = some row) :
    i < candidate.rowIds.length := by
  rw [GeometryCandidate.row?, Option.bind_eq_some_iff] at h
  obtain ⟨id, hid, -⟩ := h
  exact (List.getElem?_eq_some_iff.mp hid).1

end

/-! ## What the projection computes -/

section

variable {width height : Nat} {initialBoard requiredCells : Board} {clearRows : ClearRowDomain}
  {catalog : GeometryCatalog} {candidate : GeometryCandidate catalog} {p : CandidateProjection}

section

variable (h : IsCatalog width height initialBoard requiredCells clearRows catalog)
  (ht : IsTiling width height initialBoard requiredCells candidate)
  (hp : Projects catalog candidate p)

include hp in
theorem getLsbD_logicalBoard (subset : Subset) (k : Nat) :
    (p.logicalBoard subset).getLsbD k = true ↔ catalog.initialBoard.getLsbD k = true ∨
      ∃ i row, candidate.row? i = some row ∧ subset.getLsbD i = true ∧
        row.cells.getLsbD k = true := by
  have hbits := getLsbD_foldl_or (fun operation : Board × Nat => operation.1)
    (fun operation => subset.getLsbD operation.2) k p.operationCells.zipIdx p.initialBoard
  rw [CandidateProjection.logicalBoard, hbits, hp.initial_eq]
  refine or_congr_right ⟨?_, ?_⟩
  · rintro ⟨⟨cells, i⟩, hmem, hsub, hk⟩
    rw [mem_zipIdx_iff_getElem?, hp.cells, Option.map_eq_some_iff] at hmem
    obtain ⟨row, hrow, rfl⟩ := hmem
    exact ⟨i, row, hrow, hsub, hk⟩
  · rintro ⟨i, row, hrow, hsub, hk⟩
    refine ⟨(row.cells, i), ?_, hsub, hk⟩
    rw [mem_zipIdx_iff_getElem?, hp.cells, hrow]
    rfl

include hp in
theorem getLsbD_rowContributors (r i : Nat) :
    (p.rowContributors r).getLsbD i = true ↔ ∃ row, candidate.row? i = some row ∧
      (occupiedRows catalog.width row.cells).getLsbD r = true := by
  have hbits := getLsbD_foldl_or (fun operation : Board × Nat => rowBit operation.2)
    (fun operation => hasRow (occupiedRows catalog.width operation.1) r) i
    p.operationCells.zipIdx 0
  rw [hp.contributors_eq, CandidateProjection.contributors, hbits]
  constructor
  · rintro (h | ⟨⟨cells, j⟩, hmem, hocc, hbit⟩)
    · simp at h
    · rw [getLsbD_rowBit, decide_eq_true_eq] at hbit
      obtain ⟨rfl, -⟩ := hbit
      rw [mem_zipIdx_iff_getElem?, hp.cells, Option.map_eq_some_iff] at hmem
      obtain ⟨row, hrow, rfl⟩ := hmem
      rw [hasRow_eq] at hocc
      exact ⟨row, hrow, hocc⟩
  · rintro ⟨row, hrow, hocc⟩
    refine Or.inr ⟨(row.cells, i), ?_, by rw [hasRow_eq]; exact hocc, ?_⟩
    · rw [mem_zipIdx_iff_getElem?, hp.cells, hrow]
      rfl
    · rw [getLsbD_rowBit, decide_eq_true_eq]
      exact ⟨rfl, by have := row?_lt hrow; have := hp.count_le; omega⟩

include h ht hp in
theorem getLsbD_completed (r : Nat) :
    p.completedTargetRows.getLsbD r = true ↔
      r < height ∧ boardRow width (initialBoard ||| requiredCells) r = fullRowMask width := by
  have hfinal : p.operationCells.foldl (· ||| ·) catalog.initialBoard =
      initialBoard ||| requiredCells := by
    refine BitVec.eq_of_getLsbD_eq fun k _ => ?_
    have hbits := getLsbD_foldl_or (fun cells : Board => cells) (fun _ => true) k
      p.operationCells catalog.initialBoard
    simp only [if_true, true_and] at hbits
    rw [Bool.eq_iff_iff, hbits, BitVec.getLsbD_or, Bool.or_eq_true, h.initial_eq, ht.covers]
    refine or_congr_right ⟨?_, ?_⟩
    · rintro ⟨cells, hmem, hk⟩
      obtain ⟨i, hi⟩ := mem_iff_getElem?.mp hmem
      rw [hp.cells, Option.map_eq_some_iff] at hi
      obtain ⟨row, hrow, rfl⟩ := hi
      exact ⟨i, row, hrow, hk⟩
    · rintro ⟨i, row, hrow, hk⟩
      refine ⟨row.cells, mem_of_getElem? (i := i) ?_, hk⟩
      rw [hp.cells, hrow]
      rfl
  rw [hp.completed_eq, hfinal, h.width_eq, h.height_eq]
  exact getLsbD_fullRows h.height_le _ _

include hp in
theorem getLsbD_expectedDeletedRows (hh : catalog.height ≤ 16) (subset : Subset) (r : Nat) :
    (p.expectedDeletedRows subset).getLsbD r = true ↔ r < catalog.height ∧
      p.completedTargetRows.getLsbD r = true ∧ (∃ i, (p.rowContributors r).getLsbD i = true) ∧
      ∀ i, (p.rowContributors r).getLsbD i = true → subset.getLsbD i = true := by
  have hbits := getLsbD_foldl_or (fun row : Nat => rowBit row)
    (fun row => decide (hasRow p.completedTargetRows row ∧ p.rowContributors row ≠ 0 ∧
      (p.rowContributors row &&& ~~~subset) = 0)) r (List.range p.height) 0
  simp only [decide_eq_true_eq] at hbits
  have hne : ∀ mask : Subset, mask ≠ 0 ↔ ∃ i, mask.getLsbD i = true := by
    intro mask
    constructor
    · intro hmask
      by_contra hall
      refine hmask (BitVec.eq_of_getLsbD_eq fun i _ => ?_)
      simpa using fun hi => hall ⟨i, hi⟩
    · rintro ⟨i, hi⟩ rfl
      simp at hi
  have hsub : ∀ mask : Subset, (mask &&& ~~~subset) = 0 ↔
      ∀ i, mask.getLsbD i = true → subset.getLsbD i = true := by
    intro mask
    rw [show (0 : Subset) = 0#16 from rfl, and_eq_zero_iff]
    refine forall_congr' fun i => ⟨fun hi hmask => ?_, fun hi hmask hnot => ?_⟩
    · have := hi hmask
      simpa [BitVec.lt_of_getLsbD hmask] using this
    · rw [BitVec.getLsbD_not, hi hmask] at hnot
      simp at hnot
  rw [CandidateProjection.expectedDeletedRows, hbits, hp.height_eq]
  simp only [hasRow_eq, hne, hsub, getLsbD_rowBit, decide_eq_true_eq, mem_range]
  constructor
  · rintro (h | ⟨row, hrow, hmask, rfl, -⟩)
    · simp at h
    · exact ⟨hrow, hmask⟩
  · rintro ⟨hrow, hmask⟩
    exact Or.inr ⟨r, hrow, hmask, rfl, by omega⟩

include h ht hp in
/-- The rows whose contributors are all placed are the rows that are full. A piece still missing
    from a row leaves its own cells of that row empty, because nothing else may cover them. -/
theorem expectedDeletedRows_eq (subset : Subset) :
    p.expectedDeletedRows subset =
      CandidateProjection.fullRows width height (p.logicalBoard subset) := by
  have hw64 := h.width_le
  refine BitVec.eq_of_getLsbD_eq fun r _ => ?_
  rw [Bool.eq_iff_iff, getLsbD_expectedDeletedRows hp (h.height_eq ▸ h.height_le),
    getLsbD_fullRows h.height_le, getLsbD_completed h ht hp, h.height_eq]
  refine and_congr_right fun hr => ?_
  rw [boardRow_eq_full_iff hw64, boardRow_eq_full_iff hw64]
  constructor
  · rintro ⟨⟨-, hfull⟩, -, hall⟩ col hcol
    have hcell := hfull col hcol
    rw [BitVec.getLsbD_or, Bool.or_eq_true] at hcell
    rw [getLsbD_logicalBoard hp, h.initial_eq]
    refine hcell.imp_right fun hreq => ?_
    obtain ⟨i, row, hrow, hk⟩ := (ht.covers _).mp hreq
    refine ⟨i, row, hrow, hall i ?_, hk⟩
    rw [getLsbD_rowContributors hp, h.width_eq]
    refine ⟨row, hrow, (getLsbD_occupiedRows _ _ _).mpr ⟨by omega, _, hk, ?_⟩⟩
    rw [Nat.mul_comm, mul_add_div h.width_pos, div_eq_of_lt hcol, Nat.add_zero]
  · intro hlogical
    have hfull : ∀ col, col < width →
        (initialBoard ||| requiredCells).getLsbD (r * width + col) = true := by
      intro col hcol
      rw [BitVec.getLsbD_or, Bool.or_eq_true]
      have hcell := (getLsbD_logicalBoard hp subset _).mp (hlogical col hcol)
      rw [h.initial_eq] at hcell
      exact hcell.imp_right fun ⟨i, row, hrow, _, hk⟩ => (ht.covers _).mpr ⟨i, row, hrow, hk⟩
    refine ⟨⟨hr, hfull⟩, ?_, ?_⟩
    · obtain ⟨k, hreq, hkr⟩ := ht.contributor r hr ((boardRow_eq_full_iff hw64).mpr hfull)
      obtain ⟨i, row, hrow, hk⟩ := (ht.covers k).mp hreq
      refine ⟨i, (getLsbD_rowContributors hp r i).mpr ⟨row, hrow, ?_⟩⟩
      rw [h.width_eq]
      exact (getLsbD_occupiedRows _ _ _).mpr ⟨by omega, k, hk, hkr⟩
    · intro i hi
      obtain ⟨row, hrow, hocc⟩ := (getLsbD_rowContributors hp r i).mp hi
      rw [h.width_eq] at hocc
      obtain ⟨-, k, hk, hkr⟩ := (getLsbD_occupiedRows _ _ _).mp hocc
      -- the piece's own cell in the row is filled, and only the piece can fill it
      have hcell := hlogical (k % width) (mod_lt k h.width_pos)
      rw [← hkr, div_add_mod', getLsbD_logicalBoard hp, h.initial_eq] at hcell
      rcases hcell with hinit | ⟨j, row', hrow', hsub, hk'⟩
      · have hreq := (ht.covers k).mpr ⟨i, row, hrow, hk⟩
        rw [h.disjoint k hreq] at hinit
        simp at hinit
      · by_cases hij : i = j
        · rw [hij]
          exact hsub
        · rw [ht.disjoint hrow hrow' hij k hk] at hk'
          simp at hk'

/-! ## Locking on the board as it stands -/

/-- The cells of a lock on the board are its target cells, compacted. -/
theorem physicalCells_eq_compact {deleted : Rows} {piece : PieceKind} {rotation : RotationState}
    {x lockY : Int} (hw : 0 < width) (hh : height ≤ 16) (hcells : width * height ≤ 64)
    (hdel : RowsBelow height deleted) (hin : Inside width height deleted piece rotation x lockY) :
    physicalCells width piece rotation x lockY = compactTargetBoard width height
      (targetCells width height deleted piece rotation x lockY) deleted := by
  have hheight : 0 < height := by
    rcases Nat.eq_zero_or_pos height with rfl | hpos
    · obtain ⟨c, hc, -⟩ := exists_shapeCell_x_zero piece rotation
      have := (hin c hc).2
      omega
    · exact hpos
  have hw64 : width ≤ 64 := (Nat.le_mul_of_pos_right width hheight).trans hcells
  have hvisible := visibleBelow_height hh hdel
  -- the row of a cell of the lock, and where it is in the target
  have hrow : ∀ c ∈ shapeCells piece rotation, ∃ t,
      targetRowForCurrentRow height deleted (lockY + c.y).toNat = some t := by
    intro c hc
    have := (hin c hc).2
    exact exists_targetRow_iff.mpr (by omega)
  have hsplit : ∀ {a b c d : Nat}, b < width → d < width → a * width + b = c * width + d →
      a = c ∧ b = d := by
    intro a b c d hb hd heq
    have hdiv := congrArg (· / width) heq
    have hmod := congrArg (· % width) heq
    simp only [Nat.mul_comm _ width, mul_add_div hw, mul_add_mod, div_eq_of_lt hb,
      div_eq_of_lt hd, mod_eq_of_lt hb, mod_eq_of_lt hd] at hdiv hmod
    exact ⟨by omega, hmod⟩
  refine board_ext hw fun y col hcol => ?_
  rw [compact_cell hw64 hcells _ _ hcol, physicalCells, getLsbD_lockCells]
  constructor
  · rintro ⟨-, c, hc, heq⟩
    obtain ⟨t, ht⟩ := hrow c hc
    have hx := (hin c hc).1
    obtain ⟨hy, hcol'⟩ := hsplit hcol (show (x + c.x).toNat < width by omega) heq
    have htlt := (targetRow_eq_some.mp ht).1
    refine ⟨t, by rw [hy]; exact ht, ?_⟩
    rw [targetCells, getLsbD_lockCells]
    refine ⟨cell_lt hcells htlt hcol, c, hc, ?_⟩
    rw [ht, hcol']
    rfl
  · rintro ⟨t, ht, hcell⟩
    rw [targetCells, getLsbD_lockCells] at hcell
    obtain ⟨-, c, hc, heq⟩ := hcell
    obtain ⟨t', ht'⟩ := hrow c hc
    have hx := (hin c hc).1
    rw [ht', Option.getD_some] at heq
    obtain ⟨rfl, hcol'⟩ := hsplit hcol (show (x + c.x).toNat < width by omega) heq
    have hy : y = (lockY + c.y).toNat := by
      rw [← (targetRow_eq_some.mp ht).2.2,
        ← (targetRow_eq_some.mp ht').2.2]
    have htlt := (targetRow_eq_some.mp ht).1
    refine ⟨cell_lt hcells (lt_of_le_of_lt (targetRow_le ht) htlt) hcol, c, hc, ?_⟩
    rw [hy, hcol']
    rfl

/-! ## One lock -/

include h ht hp in
/-- What is projected for a subset: its union of cells, cleared. -/
theorem computeState_eq (subset : Subset) :
    p.computeState subset = (compactTargetBoard width height (p.logicalBoard subset)
        (CandidateProjection.fullRows width height (p.logicalBoard subset)),
      CandidateProjection.fullRows width height (p.logicalBoard subset)) := by
  rw [CandidateProjection.computeState, expectedDeletedRows_eq h ht hp, hp.width_eq, hp.height_eq, h.width_eq, h.height_eq]

include hp in
theorem logicalBoard_place (subset : Subset) {i : Nat}
    {row : SkeletonRow} (hrow : candidate.row? i = some row) :
    p.logicalBoard (subset ||| rowBit i) = p.logicalBoard subset ||| row.cells := by
  refine BitVec.eq_of_getLsbD_eq fun k _ => ?_
  rw [Bool.eq_iff_iff, BitVec.getLsbD_or, Bool.or_eq_true, getLsbD_logicalBoard hp,
    getLsbD_logicalBoard hp, or_assoc]
  refine or_congr_right ⟨?_, ?_⟩
  · rintro ⟨j, row', hrow', hsub, hk⟩
    rw [BitVec.getLsbD_or, Bool.or_eq_true, getLsbD_rowBit, decide_eq_true_eq] at hsub
    rcases hsub with hsub | ⟨rfl, -⟩
    · exact Or.inl ⟨j, row', hrow', hsub, hk⟩
    · rw [Option.some.inj (hrow.symm.trans hrow')]
      exact Or.inr hk
  · rintro (⟨j, row', hrow', hsub, hk⟩ | hk)
    · exact ⟨j, row', hrow', by rw [BitVec.getLsbD_or, hsub]; rfl, hk⟩
    · refine ⟨i, row, hrow, ?_, hk⟩
      have hi : i < 16 := by
        have := row?_lt hrow
        have := hp.count_le
        omega
      rw [BitVec.getLsbD_or, getLsbD_rowBit, decide_eq_true ⟨rfl, hi⟩, Bool.or_true]

include h hp in
theorem computeState_zero : p.computeState 0 = (initialBoard, 0) := by
  have hw64 := h.width_le
  have hlogical : p.logicalBoard 0 = initialBoard := by
    refine BitVec.eq_of_getLsbD_eq fun k _ => ?_
    rw [Bool.eq_iff_iff, getLsbD_logicalBoard hp, h.initial_eq]
    refine or_iff_left ?_
    rintro ⟨i, row, -, hsub, -⟩
    simp at hsub
  -- nothing is placed, so no row has all its contributors
  have hnone : p.expectedDeletedRows 0 = 0 := by
    refine BitVec.eq_of_getLsbD_eq fun r _ => ?_
    cases hr : (p.expectedDeletedRows 0).getLsbD r with
    | false => simp
    | true =>
      obtain ⟨-, -, ⟨i, hi⟩, hall⟩ :=
        (getLsbD_expectedDeletedRows hp (h.height_eq ▸ h.height_le) 0 r).mp hr
      exact absurd (hall i hi) (by simp)
  rw [CandidateProjection.computeState, hnone, hlogical, hp.width_eq, hp.height_eq, h.width_eq,
    h.height_eq]
  refine Prod.ext (board_ext h.width_pos fun y col hcol => ?_) rfl
  dsimp only
  have hid : ∀ t, visibleBelow 0 t = t := by
    intro t
    rw [visibleBelow, count_iff_forall.mpr fun r _ => by simp]
  rw [compact_cell hw64 h.cells_le _ _ hcol]
  constructor
  · rintro ⟨t, htrow, hbit⟩
    obtain ⟨-, -, rfl⟩ := targetRow_eq_some.mp htrow
    rwa [hid]
  · intro hbit
    have hlt : y < height := by
      have := h.inside _ hbit
      by_contra hge
      have := Nat.mul_le_mul_right width (Nat.le_of_not_lt hge)
      rw [Nat.mul_comm height] at this
      omega
    exact ⟨y, targetRow_eq_some.mpr ⟨hlt, by simp, hid y⟩, hbit⟩

end

variable {buildTarget : Bool} (h : IsCatalog width height initialBoard requiredCells
    (clearRowDomain width height initialBoard requiredCells buildTarget) catalog)
  (ht : IsTiling width height initialBoard requiredCells candidate)
  (hp : Projects catalog candidate p)
include h ht hp

/-- The rows gone after a subset are rows the catalog was compiled for. -/
theorem inDomain_fullRows (subset : Subset) :
    InDomain width height initialBoard requiredCells buildTarget
      (CandidateProjection.fullRows width height (p.logicalBoard subset)) := by
  have hw64 := h.width_le
  refine ⟨fun r hr => ((getLsbD_fullRows h.height_le _ r).mp hr).1, fun _ r hr => ?_⟩
  have hfull := ((getLsbD_fullRows h.height_le _ r).mp hr).2
  rw [boardRow_eq_full_iff hw64] at hfull ⊢
  intro col hcol
  have hcell := (getLsbD_logicalBoard hp subset _).mp (hfull col hcol)
  rw [h.initial_eq] at hcell
  rw [BitVec.getLsbD_or, Bool.or_eq_true]
  exact hcell.imp_right fun ⟨i, row, hrow, _, hk⟩ => (ht.covers _).mpr ⟨i, row, hrow, hk⟩

/-- **One lock.** An instantiated realization of an operation not yet placed never collides with the
    projected board, and clearing after it gives the projected state of the larger subset. -/
theorem lock_step {subset : Subset} {i rowId : Nat}
    (hunplaced : subset.getLsbD i = false) (hid : candidate.rowIds[i]? = some rowId)
    {inst : InstantiatedRealization}
    (hinst : inst ∈ catalog.instantiations rowId (p.computeState subset).2) :
    ((p.computeState subset).1 &&& inst.lockMask) = 0 ∧
      inst.lockY < height ∧
      ∃ cleared, placeAndClear width height ((p.computeState subset).1 ||| inst.lockMask) =
          ((p.computeState (subset ||| rowBit i)).1, cleared) ∧
        mergeDeletedRows height (p.computeState subset).2 cleared.1 =
          some (p.computeState (subset ||| rowBit i)).2 := by
  have hw64 := h.width_le
  obtain ⟨skeleton, hskeleton⟩ : ∃ row, catalog.skeletons[rowId]? = some row :=
    ⟨_, getElem?_eq_getElem (candidate.valid rowId (mem_of_getElem? hid))⟩
  have hrow : candidate.row? i = some skeleton := by
    rw [GeometryCandidate.row?, hid]
    exact hskeleton
  have hdomain := inDomain_fullRows h ht hp subset
  rw [computeState_eq h ht hp, computeState_eq h ht hp, logicalBoard_place hp subset hrow] at *
  dsimp only at hinst ⊢
  obtain ⟨hin, htarget, hmask⟩ := (h.mem_instantiations hdomain.1
    (fun t htdel => hdomain.allowsRow h.height_le htdel) hskeleton).mp hinst
  have hphysical : inst.lockMask = compactTargetBoard width height skeleton.cells
      (CandidateProjection.fullRows width height (p.logicalBoard subset)) := by
    rw [hmask, physicalCells_eq_compact h.width_pos h.height_le h.cells_le hdomain.1 hin, htarget]
  refine ⟨?_, ?_, ?_⟩
  · -- a shared cell would be a shared target cell
    rw [hphysical]
    refine and_eq_zero_iff.mpr fun k hboard hlock => ?_
    rw [← div_add_mod' k width] at hboard hlock
    have hcol := mod_lt k h.width_pos
    obtain ⟨t, htrow, hlogical⟩ := (compact_cell hw64 h.cells_le _ _ hcol).mp hboard
    obtain ⟨t', htrow', hcell⟩ := (compact_cell hw64 h.cells_le _ _ hcol).mp hlock
    rw [← Option.some.inj (htrow.symm.trans htrow')] at hcell
    rcases (getLsbD_logicalBoard hp subset _).mp hlogical with hinit | ⟨j, row', hrow', hsub, hk⟩
    · rw [h.initial_eq, h.disjoint _ ((ht.covers _).mpr ⟨i, skeleton, hrow, hcell⟩)] at hinit
      simp at hinit
    · have hne : j ≠ i := by
        rintro rfl
        rw [hunplaced] at hsub
        simp at hsub
      rw [ht.disjoint hrow' hrow hne _ hk] at hcell
      simp at hcell
  · obtain ⟨c, hc, hy0⟩ := exists_shapeCell_y_zero skeleton.piece inst.rotation
    have := (hin c hc).2
    omega
  · rw [hphysical, ← compact_or h.width_pos hw64 h.cells_le]
    have hclear := clear_compact h.width_pos hw64 h.height_le h.cells_le
      (p.logicalBoard subset ||| skeleton.cells)
      (CandidateProjection.fullRows width height (p.logicalBoard subset))
    rwa [fullRows_or hw64 h.height_le] at hclear

/-! ## Any order -/

/-- A lock of an operation. -/
structure Lock where
  operation : Nat
  realization : InstantiatedRealization

/-- Locking realizations of operations not yet placed, each allowed on the board it meets, and
    clearing each time. -/
inductive LockRun (catalog : GeometryCatalog) (candidate : GeometryCandidate catalog)
    (allowed : Board → PieceKind → InstantiatedRealization → Prop) :
    Subset → Board → Rows → List Lock → Subset → Board → Rows → Prop
  | nil (subset : Subset) (board : Board) (deleted : Rows) :
      LockRun catalog candidate allowed subset board deleted [] subset board deleted
  | cons {subset subset' : Subset} {board board' : Board} {deleted next deleted' : Rows}
      {lock : Lock} {rest : List Lock} {rowId : Nat} {row : SkeletonRow} :
      subset.getLsbD lock.operation = false →
      candidate.rowIds[lock.operation]? = some rowId →
      catalog.skeletons[rowId]? = some row →
      lock.realization ∈ catalog.instantiations rowId deleted →
      allowed board row.piece lock.realization →
      mergeDeletedRows catalog.height deleted (placeAndClear catalog.width catalog.height
        (board ||| lock.realization.lockMask)).2.1 = some next →
      LockRun catalog candidate allowed (subset ||| rowBit lock.operation)
        (placeAndClear catalog.width catalog.height (board ||| lock.realization.lockMask)).1 next
        rest subset' board' deleted' →
      LockRun catalog candidate allowed subset board deleted (lock :: rest) subset' board' deleted'

/-- From the state of a subset every run ends in the state of its subset. -/
theorem lockRun_state {subset subset' : Subset} {board board' : Board}
    {deleted deleted' : Rows} {locks : List Lock}
    {allowed : Board → PieceKind → InstantiatedRealization → Prop}
    (hrun : LockRun catalog candidate allowed subset board deleted locks subset' board' deleted')
    (hstart : (board, deleted) = p.computeState subset) :
    (board', deleted') = p.computeState subset' := by
  induction hrun with
  | nil => exact hstart
  | cons hunplaced hid _ hinst _ hmerge _ ih =>
    have hboard := congrArg Prod.fst hstart
    have hdeleted := congrArg Prod.snd hstart
    dsimp only at hboard hdeleted
    subst hboard hdeleted
    obtain ⟨-, -, cleared, hclear, hmerge'⟩ := lock_step h ht hp hunplaced hid hinst
    rw [h.width_eq, h.height_eq] at hmerge ih
    rw [hclear] at hmerge ih
    refine ih (Prod.ext rfl ?_)
    exact Option.some.inj (hmerge.symm.trans hmerge')

end

end Clearra.Proof.Executor
