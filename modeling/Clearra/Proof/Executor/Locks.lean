import Clearra.Proof.Executor.Projections

/-!
# Locks and realizations

A lock is a placement on the board as it stands; in the target frame it occupies the target rows of
its current rows. `Inside` and `targetCells` say this without reference to the catalog. The two
directions here are the heart of the catalog's exactness: a lock inside the visible rows whose
target cells are required comes from an admissible realization and is what that realization
instantiates to (`exists_realization`), and whatever a realization instantiates to is such a lock
(`instantiate_sound`). They go through different formulas — the loop over target rows on one side,
the anchor minus the deleted rows below it on the other — which agree because only deleted rows lie
between the rows of a projection.
-/

namespace Clearra.Proof.Executor

open Clearra.Executor Lib List

/-! ## Placements -/

/-- The cells of a placement, with its rows renamed. -/
def lockCells (width : Nat) (row : Nat → Nat) (piece : PieceKind) (rotation : RotationState)
    (x lockY : Int) : Board :=
  (shapeCells piece rotation).foldl
    (fun mask c => mask ||| bit (row (lockY + c.y).toNat * width + (x + c.x).toNat)) 0

/-- The cells on the board as it stands. -/
def physicalCells (width : Nat) (piece : PieceKind) (rotation : RotationState) (x lockY : Int) :
    Board := lockCells width id piece rotation x lockY

/-- The cells in the target frame, through `target_row_for_current_row`. -/
def targetCells (width height : Nat) (deleted : Rows) (piece : PieceKind)
    (rotation : RotationState) (x lockY : Int) : Board :=
  lockCells width (fun y => (targetRowForCurrentRow height deleted y).getD 0) piece rotation x lockY

/-- Inside the columns and the rows that are left. -/
def Inside (width height : Nat) (deleted : Rows) (piece : PieceKind) (rotation : RotationState)
    (x lockY : Int) : Prop :=
  ∀ c ∈ shapeCells piece rotation, (0 ≤ x + c.x ∧ x + c.x < width) ∧
    0 ≤ lockY + c.y ∧ lockY + c.y < (height : Int) - countOnes deleted

/-- A set of rows of the board. -/
def RowsBelow (height : Nat) (deleted : Rows) : Prop := ∀ r, deleted.getLsbD r = true → r < height

theorem getLsbD_lockCells (width : Nat) (row : Nat → Nat) (piece : PieceKind)
    (rotation : RotationState) (x lockY : Int) (k : Nat) :
    (lockCells width row piece rotation x lockY).getLsbD k = true ↔
      k < 64 ∧ ∃ c ∈ shapeCells piece rotation,
        k = row (lockY + c.y).toNat * width + (x + c.x).toNat := by
  have h := getLsbD_foldl_or (fun c : ShapeCell =>
    bit (row (lockY + c.y).toNat * width + (x + c.x).toNat)) (fun _ => true) k
    (shapeCells piece rotation) 0
  simp only [if_true] at h
  rw [lockCells, h]
  simp only [getLsbD_bit, decide_eq_true_eq, true_and]
  constructor
  · rintro (h0 | ⟨c, hc, hk, h64⟩)
    · simp at h0
    · exact ⟨h64, c, hc, hk⟩
  · rintro ⟨h64, c, hc, hk⟩
    exact .inr ⟨c, hc, hk, h64⟩

/-! ## How many rows are left -/

theorem exists_count_eq {p : Nat → Prop} [DecidablePred p] {y : Nat} : ∀ {n : Nat},
    y < Nat.count p n → ∃ t, t < n ∧ p t ∧ Nat.count p t = y := by
  intro n
  induction n with
  | zero => intro h; simp at h
  | succ n ih =>
    intro h
    rw [Nat.count_succ] at h
    by_cases hlt : y < Nat.count p n
    · obtain ⟨t, ht, hp, hc⟩ := ih hlt
      exact ⟨t, by omega, hp, hc⟩
    · by_cases hp : p n
      · rw [if_pos hp] at h
        exact ⟨n, by omega, hp, by omega⟩
      · rw [if_neg hp] at h
        omega

variable {deleted : Rows}

theorem exists_targetRow_iff {height : Nat} {y : Nat} :
    (∃ t, targetRowForCurrentRow height deleted y = some t) ↔ y < visibleBelow deleted height := by
  constructor
  · rintro ⟨t, ht⟩
    obtain ⟨hlt, hvis, rfl⟩ := targetRow_eq_some.mp ht
    exact visibleBelow_lt hvis hlt
  · intro h
    obtain ⟨t, hlt, hvis, hc⟩ := exists_count_eq h
    exact ⟨t, targetRow_eq_some.mpr ⟨hlt, hvis, hc⟩⟩

theorem visibleBelow_height {height : Nat} (hh : height ≤ 16) (hdel : RowsBelow height deleted) :
    visibleBelow deleted height + countOnes deleted = height := by
  have hsplit := count_add_visibleBelow deleted
  -- nothing above the board is deleted
  have htop : ∀ n, height ≤ n → Nat.count (fun r => deleted.getLsbD r = true) n =
        Nat.count (fun r => deleted.getLsbD r = true) height := by
    intro n hn
    induction n, hn using Nat.le_induction with
    | base => rfl
    | succ n hn ih =>
      rw [Nat.count_succ, ih, if_neg fun hset => ?_, Nat.add_zero]
      have := hdel n hset
      omega
  have h := hsplit height
  rw [countOnes, countP_range_eq_count, htop 16 hh]
  omega

/-! ## The projection of a lock -/

variable {x lockY : Int}

theorem foldlM_projectLock {width height : Nat} :
    ∀ (cells : List ShapeCell) (masks out : Board × Board),
      cells.foldlM (projectLockStep width height deleted x lockY) masks = some out ↔
      (∀ c ∈ cells, (0 ≤ x + c.x ∧ x + c.x < width) ∧ 0 ≤ lockY + c.y ∧
        ∃ t, targetRowForCurrentRow height deleted (lockY + c.y).toNat = some t) ∧
      out = (cells.foldl (fun mask c => mask |||
          bit ((lockY + c.y).toNat * width + (x + c.x).toNat)) masks.1,
        cells.foldl (fun mask c => mask ||| bit ((targetRowForCurrentRow height deleted
          (lockY + c.y).toNat).getD 0 * width + (x + c.x).toNat)) masks.2) := by
  intro cells
  induction cells with
  | nil =>
    intro masks out
    rw [foldlM_nil]
    constructor
    · intro h
      exact ⟨by simp, (Option.some.inj h).symm⟩
    · rintro ⟨-, rfl⟩
      rfl
  | cons c rest ih =>
    intro masks out
    rw [foldlM_cons, projectLockStep]
    by_cases hout : x + c.x < 0 ∨ x + c.x ≥ width ∨ lockY + c.y < 0 ∨ lockY + c.y ≥ height
    · rw [if_pos hout]
      refine ⟨by simp, fun ⟨hall, _⟩ => ?_⟩
      obtain ⟨hx, hy, t, ht⟩ := hall c mem_cons_self
      have hlt := exists_targetRow_iff.mp ⟨t, ht⟩
      have hle : visibleBelow deleted height ≤ height := Nat.count_le _
      omega
    · rw [if_neg hout]
      cases hrow : targetRowForCurrentRow height deleted (lockY + c.y).toNat with
      | none =>
        refine ⟨by simp, fun ⟨hall, _⟩ => ?_⟩
        obtain ⟨-, -, t, ht⟩ := hall c mem_cons_self
        rw [hrow] at ht
        simp at ht
      | some t =>
        rw [Option.bind_eq_bind, Option.bind_some, ih, foldl_cons, foldl_cons, hrow,
          Option.getD_some]
        refine and_congr_left fun _ => ?_
        rw [forall_mem_cons]
        exact ⟨fun h => ⟨⟨by omega, by omega, t, hrow⟩, h⟩, fun h => h.2⟩

variable {piece : PieceKind} {rotation : RotationState}

/-- What the projection loop returns, and when it returns. -/
theorem projectLock_eq_some {width height : Nat} (hh : height ≤ 16)
    (hdel : RowsBelow height deleted) {out : Board × Board} :
    projectLock width height deleted piece rotation x lockY = some out ↔
      Inside width height deleted piece rotation x lockY ∧
        out = (physicalCells width piece rotation x lockY,
          targetCells width height deleted piece rotation x lockY) := by
  have hleft := visibleBelow_height hh hdel
  rw [projectLock, foldlM_projectLock]
  refine and_congr (forall₂_congr fun c _ => and_congr_right fun _ => and_congr_right fun hy => ?_)
    Iff.rfl
  rw [exists_targetRow_iff]
  omega

/-! ## From locks to realizations -/

section Realization

variable {width height : Nat} {initialBoard requiredCells : Board} {clearRows : ClearRowDomain}
  {deleted : Rows}

/-- The target rows of a lock, one per local row. -/
def lockRows (height : Nat) (deleted : Rows) (n lockY : Nat) : List Nat :=
  (List.range n).map fun i => (targetRowForCurrentRow height deleted (lockY + i)).getD 0

theorem getD_lockRows (height : Nat) (deleted : Rows) (lockY : Nat) {n i : Nat} (hi : i < n) :
    (lockRows height deleted n lockY).getD i 0 =
      (targetRowForCurrentRow height deleted (lockY + i)).getD 0 := by
  rw [lockRows, getD_eq_getElem?_getD, getElem?_map, getElem?_range hi]
  rfl

/-- The rows a projection occupies are those its cells are sent to. -/
theorem IsProjection.getLsbD_occupiedRows_iff {piece : PieceKind} {rotation : RotationState} {x : Int}
    {rows : List Nat} {mask : Board} (hw : 0 < width) (hh : height ≤ 16) (hcells : width * height ≤ 64)
    (hcols : ∀ c ∈ shapeCells piece rotation, 0 ≤ x + c.x ∧ x + c.x < width)
    (hlen : rows.length = shapeHeight piece rotation) (hlt : ∀ t ∈ rows, t < height)
    (h : IsProjection width piece rotation x rows mask) {t : Nat} :
    (occupiedRows width mask).getLsbD t = true ↔ t ∈ rows := by
  have hmem : ∀ i < rows.length, rows.getD i 0 ∈ rows := by
    intro i hi
    rw [getD_eq_getElem _ _ hi]
    exact getElem_mem hi
  rw [getLsbD_occupiedRows]
  constructor
  · rintro ⟨-, cell, hset, rfl⟩
    obtain ⟨-, c, hc, rfl⟩ := (h cell).mp hset
    rw [projectedCell_div (hcols c hc) hw]
    exact hmem c.y (by rw [hlen]; exact shapeCell_y_lt hc)
  · intro ht
    have ht' := hlt t ht
    obtain ⟨i, hi, rfl⟩ := mem_iff_getElem.mp ht
    obtain ⟨c, hc, rfl⟩ := exists_shapeCell_y_iff.mpr (show i < _ by rw [← hlen]; exact hi)
    have hrow := hlt _ (hmem c.y hi)
    refine ⟨by omega, projectedCell width x rows c,
      (h _).mpr ⟨projectedCell_lt (hcols c hc) hcells hrow, c, hc, rfl⟩, ?_⟩
    rw [projectedCell_div (hcols c hc) hw, getD_eq_getElem _ _ hi]

theorem IsRealization.getLsbD_occupiedRows_iff {r : Realization} {rows : List Nat}
    (hw : 0 < width) (hh : height ≤ 16) (hcells : width * height ≤ 64)
    (h : IsRealization width height initialBoard requiredCells clearRows r rows) {t : Nat} :
    (occupiedRows width r.cells).getLsbD t = true ↔ t ∈ rows :=
  h.cells.getLsbD_occupiedRows_iff hw hh hcells h.cols h.length h.lt

/-- An admissible realization is determined by its piece, rotation and cells. -/
theorem IsRealization.unique {r r' : Realization} {rows rows' : List Nat} (hw : 0 < width)
    (hh : height ≤ 16) (hcells : width * height ≤ 64)
    (h : IsRealization width height initialBoard requiredCells clearRows r rows)
    (h' : IsRealization width height initialBoard requiredCells clearRows r' rows')
    (hpiece : r.piece = r'.piece) (hrot : r.rotation = r'.rotation) (hmask : r.cells = r'.cells) :
    r = r' := by
  have hrows : rows = rows' := by
    refine eq_of_pairwise_lt_of_mem_iff h.sorted h'.sorted fun t => ?_
    rw [← h.getLsbD_occupiedRows_iff hw hh hcells, ← h'.getLsbD_occupiedRows_iff hw hh hcells, hmask]
  -- the leftmost column is the anchor's
  have hcol : ∀ {s s' : Realization} {rows rows' : List Nat},
      IsRealization width height initialBoard requiredCells clearRows s rows →
      IsRealization width height initialBoard requiredCells clearRows s' rows' →
      s.cells = s'.cells → s'.x ≤ s.x := by
    intro s s' rows rows' hs hs' hc
    obtain ⟨c, hc0, hx0⟩ := exists_shapeCell_x_zero s.piece s.rotation
    have hcolc := hs.cols c hc0
    have hy : c.y < rows.length := by rw [hs.length]; exact shapeCell_y_lt hc0
    have hrow : rows.getD c.y 0 < height := by
      rw [getD_eq_getElem _ _ hy]
      exact hs.lt _ (getElem_mem hy)
    have hset := (hs.cells _).mpr ⟨projectedCell_lt hcolc hcells hrow, c, hc0, rfl⟩
    rw [hc] at hset
    obtain ⟨-, c', hc', heq⟩ := (hs'.cells _).mp hset
    have hcolc' := hs'.cols c' hc'
    have hmod := congrArg (· % width) heq
    simp only [projectedCell, Nat.mul_comm _ width, Nat.mul_add_mod] at hmod
    rw [Nat.mod_eq_of_lt (by omega), Nat.mod_eq_of_lt (by omega)] at hmod
    rw [hx0] at hmod hcolc
    omega
  have hx : r.x = r'.x := Int.le_antisymm (hcol h' h hmask.symm) (hcol h h' hmask)
  have hdel : r.requiredDeletedRows = r'.requiredDeletedRows := by
    refine BitVec.eq_of_getLsbD_eq fun t _ => ?_
    rw [Bool.eq_iff_iff, h.deleted, h'.deleted, hrows]
  have hanchor : r.targetAnchorY = r'.targetAnchorY := by rw [h.anchor, h'.anchor, hrows]
  cases r
  cases r'
  simp only at hpiece hrot hmask hx hdel hanchor
  rw [hpiece, hrot, hmask, hx, hdel, hanchor]

theorem Inside.rows (hh : height ≤ 16) (hdel : RowsBelow height deleted)
    (h : Inside width height deleted piece rotation x lockY) :
    0 ≤ lockY ∧ ∀ i, i < shapeHeight piece rotation →
      ∃ t, targetRowForCurrentRow height deleted (lockY.toNat + i) = some t := by
  obtain ⟨c0, hc0, hy0⟩ := exists_shapeCell_y_zero piece rotation
  have hnonneg : 0 ≤ lockY := by
    have := (h c0 hc0).2.1
    rw [hy0] at this
    simpa using this
  refine ⟨hnonneg, fun i hi => ?_⟩
  obtain ⟨c, hc, rfl⟩ := exists_shapeCell_y_iff.mpr hi
  have hlt := (h c hc).2.2
  have hleft := visibleBelow_height hh hdel
  rw [exists_targetRow_iff]
  omega

theorem isProjection_targetCells (hnonneg : 0 ≤ lockY) :
    IsProjection width piece rotation x
      (lockRows height deleted (shapeHeight piece rotation) lockY.toNat)
      (targetCells width height deleted piece rotation x lockY) := by
  intro k
  rw [targetCells, getLsbD_lockCells]
  refine and_congr_right fun _ => exists_congr fun c => and_congr_right fun hc => ?_
  have hy : (lockY + c.y).toNat = lockY.toNat + c.y := by omega
  rw [projectedCell, getD_lockRows _ _ _ (shapeCell_y_lt hc), hy]

section LockRows

variable {n ly : Nat}
  (hrows : ∀ i, i < n → ∃ t, targetRowForCurrentRow height deleted (ly + i) = some t)

include hrows

theorem lockRows_row {i : Nat} (hi : i < n) :
    targetRowForCurrentRow height deleted (ly + i) =
      some ((lockRows height deleted n ly).getD i 0) := by
  obtain ⟨t, ht⟩ := hrows i hi
  rw [getD_lockRows _ _ _ hi, ht]
  rfl

theorem lockRows_sorted : (lockRows height deleted n ly).Pairwise (· < ·) := by
  rw [pairwise_iff_getElem]
  intro i j hi hj hij
  rw [lockRows, length_map, length_range] at hi hj
  have h1 := lockRows_row hrows hi
  have h2 := lockRows_row hrows hj
  have h := (targetRow_lt_iff h1 h2).mpr (by omega)
  rwa [getD_eq_getElem?_getD, getElem?_eq_getElem (by simpa [lockRows] using hi),
    getD_eq_getElem?_getD, getElem?_eq_getElem (by simpa [lockRows] using hj)] at h

theorem lockRows_mem {t : Nat} (ht : t ∈ lockRows height deleted n ly) :
    t < height ∧ deleted.getLsbD t = false := by
  rw [lockRows, mem_map] at ht
  obtain ⟨i, hi, rfl⟩ := ht
  rw [mem_range] at hi
  have h := targetRow_eq_some.mp (lockRows_row hrows hi)
  rw [getD_lockRows _ _ _ hi] at h
  exact ⟨h.1, h.2.1⟩

theorem lockRows_between {i t : Nat} (hi : i + 1 < n)
    (h1 : (lockRows height deleted n ly).getD i 0 < t)
    (h2 : t < (lockRows height deleted n ly).getD (i + 1) 0) : deleted.getLsbD t = true := by
  obtain ⟨-, hvis, hcount⟩ :=
    targetRow_eq_some.mp (lockRows_row hrows (show i < n by omega))
  obtain ⟨-, -, hcount'⟩ := targetRow_eq_some.mp (lockRows_row hrows hi)
  exact deleted_between hvis (by omega) h1 h2

end LockRows

/-- **A lock that lands in required cells has a realization.** -/
theorem exists_realization (hh : height ≤ 16) (hdel : RowsBelow height deleted)
    (hallowed : ∀ t, deleted.getLsbD t = true → allowsRow clearRows t)
    (hdisjoint : ∀ k, requiredCells.getLsbD k = true → initialBoard.getLsbD k = false)
    (hin : Inside width height deleted piece rotation x lockY)
    (hreq : ∀ k, (targetCells width height deleted piece rotation x lockY).getLsbD k = true →
      requiredCells.getLsbD k = true) :
    ∃ r rows, IsRealization width height initialBoard requiredCells clearRows r rows ∧
      r.piece = piece ∧ r.rotation = rotation ∧ r.x = x ∧
      r.cells = targetCells width height deleted piece rotation x lockY := by
  obtain ⟨hnonneg, hrows⟩ := hin.rows hh hdel
  let rows := lockRows height deleted (shapeHeight piece rotation) lockY.toNat
  let ctx : ProjectionContext :=
    ⟨width, height, initialBoard, requiredCells, piece, rotation, x, none, clearRows⟩
  have hlen : rows.length = shapeHeight piece rotation := by
    simp [rows, lockRows]
  have hgone : ∀ t, (ctx.requiredDeleted rows).getLsbD t = true → deleted.getLsbD t = true := by
    intro t ht
    obtain ⟨-, i, hi, h1, h2⟩ := (getLsbD_requiredDeleted ctx rows t).mp ht
    exact lockRows_between hrows hi h1 h2
  refine ⟨⟨piece, targetCells width height deleted piece rotation x lockY, ctx.requiredDeleted rows,
    rotation, x, rows.getD 0 0⟩, rows, ?_, rfl, rfl, rfl, rfl⟩
  refine ⟨fun c hc => (hin c hc).1, hlen, lockRows_sorted hrows,
    fun t ht => (lockRows_mem hrows ht).1, fun t => ?_, fun t ht => hallowed t (hgone t ht),
    isProjection_targetCells hnonneg, hreq, fun k hk => hdisjoint k (hreq k hk), rfl⟩
  dsimp only
  rw [getLsbD_requiredDeleted, hlen]
  constructor
  · rintro ⟨-, i, hi, h1, h2⟩
    exact ⟨i, hi, h1, h2⟩
  · rintro ⟨i, hi, h1, h2⟩
    have hgone' := lockRows_between hrows hi h1 h2
    exact ⟨BitVec.lt_of_getLsbD hgone', i, hi, h1, h2⟩

/-- **Instantiation is exact**: a realization turns into a lock at `lockY` exactly when that lock
    is inside the rows that are left and lands on the realization's cells. -/
theorem instantiate_eq_some {r : Realization} {rows : List Nat} (hw : 0 < width)
    (hh : height ≤ 16) (hcells : width * height ≤ 64) (hdel : RowsBelow height deleted)
    (h : IsRealization width height initialBoard requiredCells clearRows r rows)
    {inst : InstantiatedRealization} :
    instantiateRealizationRaw width height r.cells r deleted = some inst ↔
      Inside width height deleted r.piece r.rotation r.x inst.lockY ∧
        targetCells width height deleted r.piece r.rotation r.x inst.lockY = r.cells ∧
        inst = ⟨physicalCells width r.piece r.rotation r.x inst.lockY, r.rotation, r.x,
          inst.lockY⟩ := by
  have hpos : 0 < rows.length := by
    rw [h.length]
    exact (shapeHeight_bounds _ _).1
  have hanchor : r.targetAnchorY.toNat = rows.getD 0 0 := by rw [h.anchor]; rfl
  have hfirst : rows.getD 0 0 < height := by
    rw [getD_eq_getElem _ _ hpos]
    exact h.lt _ (getElem_mem hpos)
  have hbelow := countOnes_lower deleted (show rows.getD 0 0 < 16 by omega)
  have hlock : r.targetAnchorY - (countOnes (deleted &&& lowerRowMask r.targetAnchorY.toNat) : Int) =
      visibleBelow deleted (rows.getD 0 0) := by
    rw [hanchor, h.anchor]
    omega
  have hgone : (r.requiredDeletedRows &&& ~~~deleted) = 0 ↔
      ∀ t, r.requiredDeletedRows.getLsbD t = true → deleted.getLsbD t = true := by
    rw [show (0 : Rows) = 0#16 from rfl, and_eq_zero_iff]
    refine forall_congr' fun t => imp_congr_right fun ht => ?_
    rw [BitVec.getLsbD_not, decide_eq_true (BitVec.lt_of_getLsbD ht), Bool.true_and,
      Bool.not_eq_true']
    cases deleted.getLsbD t <;> simp
  have hstays : (occupiedRows width r.cells &&& deleted) = 0 ↔
      ∀ t ∈ rows, deleted.getLsbD t = false := by
    rw [show (0 : Rows) = 0#16 from rfl, and_eq_zero_iff]
    refine forall_congr' fun t => ?_
    rw [h.getLsbD_occupiedRows_iff hw hh hcells]
    exact imp_congr_right fun _ => ⟨fun h' => Bool.eq_false_iff.mpr h',
      fun h' h'' => absurd h'' (by rw [h']; simp)⟩
  unfold instantiateRealizationRaw
  dsimp only
  rw [hlock]
  constructor
  · intro hinst
    split at hinst
    · simp at hinst
    · split at hinst
      · simp at hinst
      · rw [if_neg (by omega)] at hinst
        cases hproj : projectLock width height deleted r.piece r.rotation r.x
            (visibleBelow deleted (rows.getD 0 0)) with
        | none =>
          rw [hproj] at hinst
          simp at hinst
        | some out =>
          obtain ⟨hin, rfl⟩ := (projectLock_eq_some hh hdel).mp hproj
          rw [hproj] at hinst
          dsimp only at hinst
          split at hinst
          · rename_i htarget
            rw [Option.some.injEq] at hinst
            subst hinst
            exact ⟨hin, htarget, rfl⟩
          · simp at hinst
  · rintro ⟨hin, htarget, hinst⟩
    obtain ⟨hnonneg, hrows⟩ := hin.rows hh hdel
    -- the realization's rows are the lock's rows
    have hrowsEq : rows = lockRows height deleted (shapeHeight r.piece r.rotation)
        inst.lockY.toNat := by
      refine eq_of_pairwise_lt_of_mem_iff h.sorted (lockRows_sorted hrows) fun t => ?_
      rw [← h.getLsbD_occupiedRows_iff hw hh hcells, ← htarget]
      exact (isProjection_targetCells hnonneg).getLsbD_occupiedRows_iff hw hh hcells h.cols
        (by simp [lockRows]) fun t ht => (lockRows_mem hrows ht).1
    have hreq : ∀ t, r.requiredDeletedRows.getLsbD t = true → deleted.getLsbD t = true := by
      intro t ht
      obtain ⟨i, hi, h1, h2⟩ := (h.deleted t).mp ht
      rw [h.length] at hi
      rw [hrowsEq] at h1 h2
      exact lockRows_between hrows hi h1 h2
    have hfree : ∀ t ∈ rows, deleted.getLsbD t = false := by
      intro t ht
      rw [hrowsEq] at ht
      exact (lockRows_mem hrows ht).2
    have hy : ((visibleBelow deleted (rows.getD 0 0) : Nat) : Int) = inst.lockY := by
      have h0 := lockRows_row hrows (show 0 < shapeHeight r.piece r.rotation by
        rw [← h.length]; exact hpos)
      rw [← hrowsEq] at h0
      have := (targetRow_eq_some.mp h0).2.2
      omega
    rw [if_neg (not_not.mpr (hgone.mpr hreq)), if_neg (not_not.mpr (hstays.mpr hfree)), hy,
      if_neg (by omega), (projectLock_eq_some hh hdel).mpr ⟨hin, rfl⟩]
    dsimp only
    rw [if_pos htarget, ← hinst]

end Realization

end Clearra.Proof.Executor
