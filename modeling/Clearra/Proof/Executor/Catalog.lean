import Clearra.Proof.Executor.Locks

/-!
# The catalog is complete and exact

Sorting brings the realizations of one skeleton together, so grouping neighbours groups everything
with the same piece and cells (`Grouped`), and a skeleton's slice is a filter of the whole list.
With that, draining `instantiations` is a statement about admissible realizations whether it reads
the table or instantiates on the spot, and `Proof/Executor/Locks.lean` has said what those are.
-/

namespace Clearra.Proof.Executor

open Clearra.Executor Lib List BitVec Option

/-! ## Grouping -/

/-- Same piece, same cells. -/
def SameSkeleton (s : SkeletonRow) (r : Realization) : Prop := r.piece = s.piece ∧ r.cells = s.cells

instance (s : SkeletonRow) (r : Realization) : Decidable (SameSkeleton s r) :=
  inferInstanceAs (Decidable (_ ∧ _))

/-- The leading part of the order on realizations. -/
def skeletonKey (r : Realization) : PieceKind ×ₗ Nat := toLex (r.piece, r.cells.toNat)

variable {r r' : Realization}

theorem skeletonKey_eq_iff :
    skeletonKey r = skeletonKey r' ↔ r.piece = r'.piece ∧ r.cells = r'.cells := by
  rw [skeletonKey, skeletonKey, EmbeddingLike.apply_eq_iff_eq, Prod.mk.injEq]
  exact and_congr_right fun _ => ⟨eq_of_toNat_eq, congrArg _⟩

theorem skeletonKey_mono (h : r < r') : skeletonKey r ≤ skeletonKey r' := by
  have hkey : r.ordKey < r'.ordKey := h
  rw [Realization.ordKey, Realization.ordKey, Prod.Lex.toLex_lt_toLex] at hkey
  rw [skeletonKey, skeletonKey, Prod.Lex.toLex_le_toLex]
  rcases hkey with hp | ⟨hp, hrest⟩
  · exact .inl hp
  · refine .inr ⟨hp, ?_⟩
    rw [Prod.Lex.toLex_lt_toLex] at hrest
    rcases hrest with hc | ⟨hc, -⟩
    · exact Nat.le_of_lt hc
    · exact Nat.le_of_eq hc

/-- What the grouping loop produces from `rs` when the first of them has index `start`. -/
structure Grouped (start : Nat) (rs : List Realization) (out : List SkeletonRow) : Prop where
  distinct : out.Pairwise fun s s' => ¬(s.piece = s'.piece ∧ s.cells = s'.cells)
  slices : ∀ s ∈ out, start ≤ s.realizationStart ∧
    slice rs (s.realizationStart - start) (s.realizationStart - start + s.realizationCount) =
      rs.filter (SameSkeleton s)
  inhabited : ∀ s ∈ out, ∃ r ∈ rs, SameSkeleton s r
  covers : ∀ r ∈ rs, ∃ s ∈ out, SameSkeleton s r
  head : ∀ s ∈ out.head?, s.realizationStart = start ∧ ∃ r ∈ rs.head?, SameSkeleton s r

variable {α : Type}

theorem slice_cons_succ (a : α) (l : List α) {m n : Nat} (hm : 1 ≤ m) (hn : m ≤ n) :
    slice (a :: l) m n = slice l (m - 1) (n - 1) := by
  obtain ⟨k, rfl⟩ := Nat.exists_eq_add_of_le hm
  rw [slice, slice, Nat.add_comm 1 k, drop_succ_cons]
  congr 1
  omega

theorem slice_cons_zero (a : α) (l : List α) (n : Nat) :
    slice (a :: l) 0 (n + 1) = a :: slice l 0 n := by
  simp [slice]

variable {start : Nat} {rest : List Realization}

/-- A row of the tail's grouping, seen from one element further left. -/
theorem slices_cons {r : Realization} {s : SkeletonRow} (h : start + 1 ≤ s.realizationStart ∧
      slice rest (s.realizationStart - (start + 1))
        (s.realizationStart - (start + 1) + s.realizationCount) = rest.filter (SameSkeleton s))
    (hne : ¬SameSkeleton s r) : start ≤ s.realizationStart ∧
      slice (r :: rest) (s.realizationStart - start)
        (s.realizationStart - start + s.realizationCount) =
          (r :: rest).filter (SameSkeleton s) := by
  refine ⟨by omega, ?_⟩
  rw [slice_cons_succ r rest (by omega) (by omega), filter_cons_of_neg (by simpa using hne), ← h.2]
  congr 1
  omega

/-- A realization below all that follow opens a group of its own. -/
theorem Grouped.new {r : Realization} {out : List SkeletonRow}
    (hg : Grouped (start + 1) rest out) (hlt : ∀ r' ∈ rest, skeletonKey r < skeletonKey r') :
    Grouped start (r :: rest) (⟨r.piece, r.cells, start, 1⟩ :: out) := by
  have hother : ∀ r' ∈ rest, ¬SameSkeleton ⟨r.piece, r.cells, start, 1⟩ r' := by
    intro r' hr' hsame
    exact absurd (skeletonKey_eq_iff.mpr ⟨hsame.1.symm, hsame.2.symm⟩) (hlt r' hr').ne
  have hout : ∀ s ∈ out, ¬SameSkeleton s r := by
    intro s hs hsame
    obtain ⟨r', hr', hrs⟩ := hg.inhabited s hs
    exact hother r' hr' ⟨hrs.1.trans hsame.1.symm, hrs.2.trans hsame.2.symm⟩
  refine ⟨pairwise_cons.mpr ⟨hout, hg.distinct⟩, ?_, ?_, ?_, ?_⟩
  · intro s hs
    rcases mem_cons.mp hs with rfl | hs
    · refine ⟨Nat.le_refl _, ?_⟩
      dsimp only
      rw [Nat.sub_self, Nat.zero_add, slice_cons_zero, filter_cons_of_pos (by simp [SameSkeleton]),
        filter_eq_nil_iff.mpr fun r' hr' => by simpa using hother r' hr']
      simp [slice]
    · exact slices_cons (hg.slices s hs) (hout s hs)
  · intro s hs
    rcases mem_cons.mp hs with rfl | hs
    · exact ⟨r, mem_cons_self, rfl, rfl⟩
    · obtain ⟨r', hr', hrs⟩ := hg.inhabited s hs
      exact ⟨r', mem_cons_of_mem _ hr', hrs⟩
  · intro r' hr'
    rcases mem_cons.mp hr' with rfl | hr'
    · exact ⟨_, mem_cons_self, rfl, rfl⟩
    · obtain ⟨s, hs, hrs⟩ := hg.covers r' hr'
      exact ⟨s, mem_cons_of_mem _ hs, hrs⟩
  · intro s hs
    rw [head?_cons, mem_some_iff] at hs
    subst hs
    exact ⟨rfl, r, by simp, rfl, rfl⟩

/-- A realization with the first group's skeleton joins it. -/
theorem Grouped.join {r : Realization} {s : SkeletonRow}
    {more : List SkeletonRow} (hg : Grouped (start + 1) rest (s :: more))
    (hsame : s.piece = r.piece ∧ s.cells = r.cells) : Grouped start (r :: rest)
      (⟨r.piece, r.cells, start, s.realizationCount + 1⟩ :: more) := by
  obtain ⟨hstart, -⟩ := hg.head s (by simp)
  have hdistinct := pairwise_cons.mp hg.distinct
  have hjoin : ∀ r', SameSkeleton s r' ↔
      SameSkeleton ⟨r.piece, r.cells, start, s.realizationCount + 1⟩ r' := by
    intro r'
    rw [SameSkeleton, SameSkeleton, hsame.1, hsame.2]
  refine ⟨?_, ?_, ?_, ?_, ?_⟩
  · refine pairwise_cons.mpr ⟨fun s' hs' => ?_, hdistinct.2⟩
    have := hdistinct.1 s' hs'
    rwa [hsame.1, hsame.2] at this
  · intro s' hs'
    rcases mem_cons.mp hs' with rfl | hs'
    · refine ⟨Nat.le_refl _, ?_⟩
      dsimp only
      have hslice := (hg.slices s mem_cons_self).2
      rw [hstart, Nat.sub_self, Nat.zero_add] at hslice
      rw [Nat.sub_self, Nat.zero_add, slice_cons_zero, hslice,
        filter_cons_of_pos (by simp [SameSkeleton])]
      refine congrArg _ (filter_congr fun r' _ => ?_)
      exact decide_eq_decide.mpr (hjoin r')
    · refine slices_cons (hg.slices s' (mem_cons_of_mem _ hs')) fun hsame' => ?_
      exact hdistinct.1 s' hs' ⟨hsame.1.trans hsame'.1, hsame.2.trans hsame'.2⟩
  · intro s' hs'
    rcases mem_cons.mp hs' with rfl | hs'
    · exact ⟨r, mem_cons_self, rfl, rfl⟩
    · obtain ⟨r', hr', hrs⟩ := hg.inhabited s' (mem_cons_of_mem _ hs')
      exact ⟨r', mem_cons_of_mem _ hr', hrs⟩
  · intro r' hr'
    rcases mem_cons.mp hr' with rfl | hr'
    · exact ⟨_, mem_cons_self, rfl, rfl⟩
    · obtain ⟨s', hs', hrs⟩ := hg.covers r' hr'
      rcases mem_cons.mp hs' with rfl | hs'
      · exact ⟨_, mem_cons_self, (hjoin r').mp hrs⟩
      · exact ⟨s', mem_cons_of_mem _ hs', hrs⟩
  · intro s' hs'
    rw [head?_cons, mem_some_iff] at hs'
    subst hs'
    exact ⟨rfl, r, by simp, rfl, rfl⟩

theorem groupSkeletons_grouped (rs : List Realization) (start : Nat)
    (hsorted : rs.Pairwise fun r r' => skeletonKey r ≤ skeletonKey r') :
    Grouped start rs (groupSkeletons start rs) := by
  induction rs generalizing start with
  | nil =>
    exact ⟨List.Pairwise.nil, by simp [groupSkeletons], by simp [groupSkeletons], by simp,
      by simp [groupSkeletons]⟩
  | cons r rest ih =>
    rw [pairwise_cons] at hsorted
    have hg := ih (start + 1) hsorted.2
    rw [groupSkeletons]
    cases hout : groupSkeletons (start + 1) rest with
    | nil =>
      rw [hout] at hg
      refine hg.new fun r' hr' => ?_
      obtain ⟨s, hs, -⟩ := hg.covers r' hr'
      exact absurd hs not_mem_nil
    | cons s more =>
      rw [hout] at hg
      dsimp only
      split
      · rename_i hsame
        exact hg.join hsame
      · -- the first group is another skeleton's, so by the order nothing further on is this one's
        rename_i hdiff
        obtain ⟨-, r1, hr1, hs1⟩ := hg.head s (by simp)
        refine hg.new fun r' hr' => ?_
        have hne : skeletonKey r ≠ skeletonKey r1 := fun heq => hdiff
          ⟨hs1.1.symm.trans (skeletonKey_eq_iff.mp heq).1.symm,
            hs1.2.symm.trans (skeletonKey_eq_iff.mp heq).2.symm⟩
        have hr1lt := lt_of_le_of_ne (hsorted.1 r1 (mem_of_mem_head? hr1)) hne
        cases rest with
        | nil => exact absurd hr' not_mem_nil
        | cons a tail =>
          rw [head?_cons, mem_some_iff] at hr1
          subst hr1
          rcases mem_cons.mp hr' with rfl | hr'
          · exact hr1lt
          · exact lt_of_lt_of_le hr1lt ((pairwise_cons.mp hsorted.2).1 r' hr')

/-! ## What a successful compile has established -/

/-- The domain the compiler picks. -/
def clearRowDomain (width height : Nat) (initialBoard requiredCells : Board) (buildTarget : Bool) :
    ClearRowDomain :=
  if buildTarget then
    ClearRowDomain.forCompletedTarget width height fun row =>
      boardRow width (initialBoard ||| requiredCells) row
  else ClearRowDomain.unrestricted

/-- The rows of the instantiation table in the order they are written. -/
def tableRows (width height : Nat) (catalog : GeometryCatalog) :
    List (List InstantiatedRealization) :=
  catalog.skeletons.flatMap fun skeleton => (List.range (2 ^ height)).map
    (instantiationRow width height catalog.realizations skeleton)

structure IsCatalog (width height : Nat) (initialBoard requiredCells : Board)
    (clearRows : ClearRowDomain) (catalog : GeometryCatalog) : Prop where
  width_pos : 0 < width
  height_pos : 0 < height
  height_le : height ≤ 16
  cells_le : width * height ≤ 64
  disjoint : ∀ k, requiredCells.getLsbD k = true → initialBoard.getLsbD k = false
  inside : ∀ k, initialBoard.getLsbD k = true → k < width * height
  width_eq : catalog.width = width
  height_eq : catalog.height = height
  initial_eq : catalog.initialBoard = initialBoard
  states_eq : catalog.clearStateCount = 2 ^ height
  realizations_eq : catalog.realizations =
    sortDedup (enumerateRealizations width height initialBoard requiredCells clearRows)
  skeletons_eq : catalog.skeletons = groupSkeletons 0 catalog.realizations
  table : catalog.instantiationOffsets = none ∨
    catalog.instantiationOffsets = some (Csr.ofRows (tableRows width height catalog)).offsets ∧
      catalog.instantiatedRealizations = (Csr.ofRows (tableRows width height catalog)).values

/-- The table is there when it is small enough and its storage is. -/
theorem compileInstantiationTable_cases (width height : Nat) (skeletons : List SkeletonRow)
    (realizations : List Realization) (storage : Bool) :
    compileInstantiationTable width height skeletons realizations storage = none ∨
      compileInstantiationTable width height skeletons realizations storage =
        some (Csr.ofRows (skeletons.flatMap fun skeleton => (List.range (2 ^ height)).map
          (instantiationRow width height realizations skeleton))) := by
  rw [compileInstantiationTable]
  split
  · exact .inl rfl
  · split
    · exact .inl rfl
    · exact .inr rfl

theorem getLsbD_allCellsMask {cellCount : Nat} (h : cellCount ≤ 64) (k : Nat) :
    (allCellsMask cellCount).getLsbD k = decide (k < cellCount) := by
  unfold allCellsMask
  split
  · rename_i h64
    rw [h64, getLsbD_allOnes]
  · exact getLsbD_one_shiftLeft_sub_one (show cellCount < 64 by omega) k

theorem compile_isCatalog {width height : Nat} {initialBoard requiredCells : Board}
    {buildTarget : Bool} {storage : CatalogStorage} {catalog : GeometryCatalog}
    (h : compileWithClearRowDomain width height initialBoard requiredCells buildTarget storage =
      .ok catalog) :
    IsCatalog width height initialBoard requiredCells
      (clearRowDomain width height initialBoard requiredCells buildTarget) catalog := by
  rw [compileWithClearRowDomain] at h
  dsimp only at h
  split at h
  · simp at h
  rename_i hsize
  split at h
  · simp at h
  rename_i hinside
  split at h
  · simp at h
  split at h
  · simp at h
  rename_i hdisjoint
  split at h
  · simp at h
  split at h
  · simp at h
  split at h
  · simp at h
  split at h
  · simp at h
  rw [Except.ok.injEq] at h
  subst h
  refine ⟨by omega, by omega, by omega, by omega, ?_, ?_, rfl, rfl, rfl, rfl, rfl, rfl, ?_⟩
  · intro k hk
    have := and_eq_zero_iff.mp (not_not.mp hdisjoint) k hk
    simpa using this
  · intro k hk
    have hmask := and_eq_zero_iff.mp (not_not.mp hinside) k hk
    rw [getLsbD_not, getLsbD_allCellsMask (by omega)] at hmask
    have hk64 := lt_of_getLsbD hk
    simpa [hk64] using hmask
  · let realizations := sortDedup (enumerateRealizations width height initialBoard requiredCells
      (clearRowDomain width height initialBoard requiredCells buildTarget))
    rcases compileInstantiationTable_cases width height (groupSkeletons 0 realizations) realizations
      storage.instantiationTable with hnone | hsome
    · exact .inl (congrArg (Option.map Csr.offsets) hnone)
    · exact .inr ⟨congrArg (Option.map Csr.offsets) hsome,
        congrArg (fun table => (Option.map Csr.values table).getD []) hsome⟩

section

variable {width height : Nat} {initialBoard requiredCells : Board} {clearRows : ClearRowDomain}
  {catalog : GeometryCatalog} {row : SkeletonRow}

section

variable (h : IsCatalog width height initialBoard requiredCells clearRows catalog)
include h

theorem IsCatalog.width_le : width ≤ 64 :=
  (Nat.le_mul_of_pos_right width h.height_pos).trans h.cells_le

theorem IsCatalog.mem_realizations :
    r ∈ catalog.realizations ↔
      ∃ rows, IsRealization width height initialBoard requiredCells clearRows r rows := by
  rw [h.realizations_eq, mem_sortDedup]
  exact mem_enumerateRealizations ⟨h.width_pos, h.width_le⟩ ⟨h.height_pos, h.height_le⟩ h.cells_le

theorem IsCatalog.grouped : Grouped 0 catalog.realizations catalog.skeletons := by
  rw [h.skeletons_eq]
  refine groupSkeletons_grouped _ 0 ?_
  rw [h.realizations_eq]
  exact (pairwise_lt_sortDedup _).imp skeletonKey_mono

theorem IsCatalog.realizationsOf_eq (hrow : row ∈ catalog.skeletons) :
    catalog.realizationsOf row = catalog.realizations.filter (SameSkeleton row) := by
  have hslice := (h.grouped.slices row hrow).2
  rwa [Nat.sub_zero] at hslice

theorem IsCatalog.skeleton_unique {id id' : Nat} {row' : SkeletonRow}
    (hrow : catalog.skeletons[id]? = some row)
    (hrow' : catalog.skeletons[id']? = some row') (hpiece : row.piece = row'.piece)
    (hcells : row.cells = row'.cells) : id = id' := by
  obtain ⟨hid, rfl⟩ := List.getElem?_eq_some_iff.mp hrow
  obtain ⟨hid', rfl⟩ := List.getElem?_eq_some_iff.mp hrow'
  have hpair := pairwise_iff_getElem.mp h.grouped.distinct
  rcases Nat.lt_trichotomy id id' with hlt | heq | hgt
  · exact absurd ⟨hpiece, hcells⟩ (hpair id id' hid hid' hlt)
  · exact heq
  · exact absurd ⟨hpiece.symm, hcells.symm⟩ (hpair id' id hid' hid hgt)

/-- Some admissible realization has the row's cells, so they are required cells. -/
theorem IsCatalog.skeleton_required (hrow : row ∈ catalog.skeletons) :
    ∀ k, row.cells.getLsbD k = true → requiredCells.getLsbD k = true := by
  obtain ⟨r, hr, hsame⟩ := h.grouped.inhabited row hrow
  obtain ⟨rows, hreal⟩ := h.mem_realizations.mp hr
  rw [← hsame.2]
  exact hreal.required

end

/-! ## Draining the instantiations -/

/-- The realizations of a row, instantiated one by one. -/
def rawInstantiations (width height : Nat) (catalog : GeometryCatalog) (row : SkeletonRow)
    (deleted : Rows) : List InstantiatedRealization :=
  (catalog.realizationsOf row).filterMap fun realization =>
    instantiateRealizationRaw width height row.cells realization deleted

variable {deleted : Rows}

theorem RowsBelow.toNat_lt (h : RowsBelow height deleted) : deleted.toNat < 2 ^ height := by
  refine Nat.lt_pow_two_of_testBit _ fun i hi => ?_
  cases hbit : deleted.toNat.testBit i with
  | false => rfl
  | true => exact absurd (h i hbit) (by omega)

variable {id : Nat}

section

variable (h : IsCatalog width height initialBoard requiredCells clearRows catalog)
include h

section

variable (hdel : RowsBelow height deleted)
include hdel

theorem IsCatalog.instantiations_eq (hrow : catalog.skeletons[id]? = some row) :
    catalog.instantiations id deleted = rawInstantiations width height catalog row deleted ∨
      catalog.instantiations id deleted =
        sortDedup (rawInstantiations width height catalog row deleted) := by
  rw [GeometryCatalog.instantiations, hrow]
  dsimp only
  rw [GeometryCatalog.precomputed]
  rcases h.table with hnone | ⟨hoffsets, hvalues⟩
  · left
    rw [hnone, h.width_eq, h.height_eq]
    rfl
  · right
    have hlt := hdel.toNat_lt
    have hget : (tableRows width height catalog)[id * 2 ^ height + deleted.toNat]? =
        some (instantiationRow width height catalog.realizations row deleted.toNat) := by
      rw [tableRows, Csr.getElem?_flatMap_map _ hlt, hrow]
      rfl
    obtain ⟨hbound, hentry⟩ := List.getElem?_eq_some_iff.mp hget
    rw [hoffsets, hvalues, h.states_eq]
    dsimp only [map_some]
    rw [if_neg (by omega)]
    have hread := Csr.row_ofRows hbound
    rw [hentry, instantiationRow, ofNat_toNat, setWidth_eq] at hread
    exact hread

variable {inst : InstantiatedRealization}

theorem IsCatalog.mem_rawInstantiations (hrow : catalog.skeletons[id]? = some row) :
    inst ∈ catalog.instantiations id deleted ↔
      ∃ r ∈ catalog.realizations.filter (SameSkeleton row),
        instantiateRealizationRaw width height row.cells r deleted = some inst := by
  rw [← h.realizationsOf_eq (mem_of_getElem? hrow), ← mem_filterMap]
  rcases h.instantiations_eq hdel hrow with heq | heq
  · rw [heq, rawInstantiations]
  · rw [heq, mem_sortDedup, rawInstantiations]

/-- What is listed lies in the board, over the skeleton's cells. -/
theorem IsCatalog.of_mem_instantiations (hrow : catalog.skeletons[id]? = some row)
    (hinst : inst ∈ catalog.instantiations id deleted) :
    Inside width height deleted row.piece inst.rotation inst.x inst.lockY ∧
      targetCells width height deleted row.piece inst.rotation inst.x inst.lockY = row.cells ∧
      inst.lockMask = physicalCells width row.piece inst.rotation inst.x inst.lockY := by
  obtain ⟨r, hr, hinst⟩ := (h.mem_rawInstantiations hdel hrow).mp hinst
  rw [mem_filter, decide_eq_true_eq] at hr
  obtain ⟨hr, hpiece, hcells⟩ := hr
  obtain ⟨rows, hreal⟩ := h.mem_realizations.mp hr
  rw [← hcells] at hinst ⊢
  rw [← hpiece]
  obtain ⟨hin, htarget, heq⟩ :=
    (instantiate_eq_some h.width_pos h.height_le h.cells_le hdel hreal).mp hinst
  have hrot : inst.rotation = r.rotation := by rw [heq]
  have hx : inst.x = r.x := by rw [heq]
  have hmask : inst.lockMask = physicalCells width r.piece r.rotation r.x inst.lockY :=
    congrArg InstantiatedRealization.lockMask heq
  rw [hrot, hx]
  exact ⟨hin, htarget, hmask⟩

theorem IsCatalog.mem_instantiations (hallowed : ∀ t, deleted.getLsbD t = true → allowsRow clearRows t)
    (hrow : catalog.skeletons[id]? = some row) :
    inst ∈ catalog.instantiations id deleted ↔
      Inside width height deleted row.piece inst.rotation inst.x inst.lockY ∧
        targetCells width height deleted row.piece inst.rotation inst.x inst.lockY = row.cells ∧
        inst.lockMask = physicalCells width row.piece inst.rotation inst.x inst.lockY := by
  refine ⟨h.of_mem_instantiations hdel hrow, ?_⟩
  rintro ⟨hin, htarget, hmask⟩
  rw [h.mem_rawInstantiations hdel hrow]
  have hreq : ∀ k, (targetCells width height deleted row.piece inst.rotation inst.x
      inst.lockY).getLsbD k = true → requiredCells.getLsbD k = true := by
    intro k hk
    rw [htarget] at hk
    exact h.skeleton_required (mem_of_getElem? hrow) k hk
  obtain ⟨r, rows, hreal, hpiece, hrot, hx, hcells⟩ :=
    exists_realization h.height_le hdel hallowed h.disjoint hin hreq
  have hrcells : r.cells = row.cells := hcells.trans htarget
  refine ⟨r, mem_filter.mpr ⟨h.mem_realizations.mpr ⟨rows, hreal⟩,
    decide_eq_true ⟨hpiece, hrcells⟩⟩, ?_⟩
  rw [← hrcells, instantiate_eq_some h.width_pos h.height_le h.cells_le hdel hreal, hpiece, hrot,
    hx, ← hmask]
  exact ⟨hin, hcells.symm, rfl⟩

end

/-- With the skeleton fixed, the rotation determines the realization. -/
theorem IsCatalog.rotation_injective (hr : r ∈ catalog.realizations.filter (SameSkeleton row))
    (hr' : r' ∈ catalog.realizations.filter (SameSkeleton row)) (hrot : r.rotation = r'.rotation) :
    r = r' := by
  rw [mem_filter, decide_eq_true_eq] at hr hr'
  obtain ⟨rows, hreal⟩ := h.mem_realizations.mp hr.1
  obtain ⟨rows', hreal'⟩ := h.mem_realizations.mp hr'.1
  exact hreal.unique h.width_pos h.height_le h.cells_le hreal' (hr.2.1.trans hr'.2.1.symm) hrot
    (hr.2.2.trans hr'.2.2.symm)

theorem IsCatalog.nodup_filter (row : SkeletonRow) :
    (catalog.realizations.filter (SameSkeleton row)).Nodup := by
  rw [h.realizations_eq]
  exact (nodup_sortDedup _).filter _

theorem IsCatalog.nodup_instantiations (hdel : RowsBelow height deleted) (hrow : catalog.skeletons[id]? = some row) :
    (catalog.instantiations id deleted).Nodup := by
  rcases h.instantiations_eq hdel hrow with heq | heq
  · rw [heq, rawInstantiations, h.realizationsOf_eq (mem_of_getElem? hrow), List.Nodup,
      pairwise_filterMap]
    refine List.Pairwise.imp_of_mem ?_ (h.nodup_filter row)
    intro r r' hr hr' hne inst hinst inst' hinst' hsame
    -- both yield their own rotation
    have hrot : ∀ {a : Realization}, a ∈ catalog.realizations.filter (SameSkeleton row) →
        instantiateRealizationRaw width height row.cells a deleted = some inst →
        inst.rotation = a.rotation := by
      intro a ha hainst
      rw [mem_filter, decide_eq_true_eq] at ha
      obtain ⟨rows, hreal⟩ := h.mem_realizations.mp ha.1
      rw [← ha.2.2] at hainst
      rw [((instantiate_eq_some h.width_pos h.height_le h.cells_le hdel hreal).mp hainst).2.2]
    rw [← hsame] at hinst'
    exact hne (h.rotation_injective hr hr' ((hrot hr hinst).symm.trans (hrot hr' hinst')))
  · rw [heq]
    exact nodup_sortDedup _

theorem IsCatalog.exists_skeleton (hdel : RowsBelow height deleted)
    (hallowed : ∀ t, deleted.getLsbD t = true → allowsRow clearRows t) {piece : PieceKind}
    {rotation : RotationState} {x lockY : Int}
    (hin : Inside width height deleted piece rotation x lockY)
    (hreq : ∀ k, (targetCells width height deleted piece rotation x lockY).getLsbD k = true →
      requiredCells.getLsbD k = true) :
    ∃ (id : Nat) (row : SkeletonRow), catalog.skeletons[id]? = some row ∧ row.piece = piece ∧
      row.cells = targetCells width height deleted piece rotation x lockY := by
  obtain ⟨r, rows, hreal, hpiece, -, -, hcells⟩ :=
    exists_realization h.height_le hdel hallowed h.disjoint hin hreq
  obtain ⟨row, hrow, hsame⟩ := h.grouped.covers r (h.mem_realizations.mpr ⟨rows, hreal⟩)
  obtain ⟨id, hid⟩ := mem_iff_getElem?.mp hrow
  exact ⟨id, row, hid, hsame.1.symm.trans hpiece, hsame.2.symm.trans hcells⟩

end

end

/-! ## The two clear-row domains -/

/-- The deleted rows the compiled domain answers for: all of them, or those the target completes. -/
def InDomain (width height : Nat) (initialBoard requiredCells : Board) (buildTarget : Bool)
    (deleted : Rows) : Prop :=
  RowsBelow height deleted ∧ (buildTarget = true → ∀ t, deleted.getLsbD t = true →
    boardRow width (initialBoard ||| requiredCells) t = fullRowMask width)

theorem InDomain.allowsRow {width height : Nat} {initialBoard requiredCells : Board}
    {buildTarget : Bool} {deleted : Rows} (hh : height ≤ 16)
    (h : InDomain width height initialBoard requiredCells buildTarget deleted) {t : Nat}
    (ht : deleted.getLsbD t = true) :
    allowsRow (clearRowDomain width height initialBoard requiredCells buildTarget) t := by
  have hlt := h.1 t ht
  rw [Executor.allowsRow, clearRowDomain]
  cases buildTarget with
  | false =>
    rw [if_neg (by simp), ClearRowDomain.unrestricted, getLsbD_allOnes, decide_eq_true_eq]
    omega
  | true =>
    have hfull := h.2 rfl t ht
    rw [if_pos rfl, ClearRowDomain.forCompletedTarget]
    have hbits := getLsbD_foldl_or (fun row : Nat => 1#32 <<< row)
      (fun row => decide (boardRow width (initialBoard ||| requiredCells) row = fullRowMask width))
      t (List.range height) 0
    simp only [decide_eq_true_eq] at hbits
    refine hbits.mpr (Or.inr ⟨t, mem_range.mpr hlt, hfull, ?_⟩)
    rw [getLsbD_one_shiftLeft, decide_eq_true_eq]
    omega

/-! ## Complete and exact -/

theorem filter_eq_singleton [DecidableEq α] {l : List α} (hl : l.Nodup) {p : α → Bool}
    {a : α} (ha : a ∈ l) (hp : ∀ b ∈ l, p b = true ↔ b = a) : l.filter p = [a] := by
  have hbeq : l.filter p = l.filter (· == a) := by
    refine filter_congr fun b hb => ?_
    rw [Bool.eq_iff_iff, hp b hb, beq_iff_eq]
  rw [hbeq, filter_beq, count_eq_one_of_mem hl ha]
  rfl

/-- The rotation, column and height of an instantiation. -/
def IsPlacement (rotation : RotationState) (x lockY : Int) (inst : InstantiatedRealization) : Bool :=
  inst.rotation = rotation ∧ inst.x = x ∧ inst.lockY = lockY

/-- The catalog is complete and exact. A placement into the rows that are left covers exactly the
    target cells `cells`, all required, iff there is one skeleton with that piece and those cells
    and draining its instantiations meets the placement once, with its physical cells; and nothing
    but such placements is drained. The storage for the table may or may not be there. -/
theorem compile_complete_and_exact {width height : Nat} {initialBoard requiredCells : Board}
    {buildTarget : Bool} {storage : CatalogStorage} {catalog : GeometryCatalog}
    (hok : compileWithClearRowDomain width height initialBoard requiredCells buildTarget storage =
      .ok catalog) {deleted : Rows}
    (hdel : InDomain width height initialBoard requiredCells buildTarget deleted) :
    (∀ (piece : PieceKind) (rotation : RotationState) (x lockY : Int) (cells : Board),
      (Inside width height deleted piece rotation x lockY ∧
        targetCells width height deleted piece rotation x lockY = cells ∧
        ∀ k, cells.getLsbD k = true → requiredCells.getLsbD k = true) ↔
      ∃ rowId, (∀ id, (∃ row, catalog.skeletons[id]? = some row ∧ row.piece = piece ∧
          row.cells = cells) ↔ id = rowId) ∧
        (catalog.instantiations rowId deleted).filter (IsPlacement rotation x lockY) =
          [⟨physicalCells width piece rotation x lockY, rotation, x, lockY⟩]) ∧
    ∀ (rowId : Nat) (row : SkeletonRow), catalog.skeletons[rowId]? = some row →
      ∀ inst ∈ catalog.instantiations rowId deleted,
        Inside width height deleted row.piece inst.rotation inst.x inst.lockY ∧
          targetCells width height deleted row.piece inst.rotation inst.x inst.lockY = row.cells ∧
          inst.lockMask = physicalCells width row.piece inst.rotation inst.x inst.lockY := by
  have h := compile_isCatalog hok
  have hallowed : ∀ t, deleted.getLsbD t = true → allowsRow
      (clearRowDomain width height initialBoard requiredCells buildTarget) t :=
    fun t ht => hdel.allowsRow h.height_le ht
  refine ⟨fun piece rotation x lockY cells => ⟨?_, ?_⟩, fun rowId row hrow inst hinst =>
    (h.mem_instantiations hdel.1 hallowed hrow).mp hinst⟩
  · rintro ⟨hin, rfl, hreq⟩
    obtain ⟨rowId, row, hrow, hpiece, hcells⟩ := h.exists_skeleton hdel.1 hallowed hin hreq
    refine ⟨rowId, fun id => ⟨?_, ?_⟩, ?_⟩
    · rintro ⟨row', hrow', hpiece', hcells'⟩
      exact h.skeleton_unique hrow' hrow (hpiece'.trans hpiece.symm) (hcells'.trans hcells.symm)
    · rintro rfl
      exact ⟨row, hrow, hpiece, hcells⟩
    · refine filter_eq_singleton (h.nodup_instantiations hdel.1 hrow) ?_ fun inst hinst => ?_
      · rw [h.mem_instantiations hdel.1 hallowed hrow, hpiece]
        exact ⟨hin, hcells.symm, rfl⟩
      · have hmask := ((h.mem_instantiations hdel.1 hallowed hrow).mp hinst).2.2
        rw [IsPlacement, decide_eq_true_eq]
        constructor
        · rintro ⟨hrot, hx, hy⟩
          rw [hpiece, hrot, hx, hy] at hmask
          rw [← hmask, ← hrot, ← hx, ← hy]
        · rintro rfl
          exact ⟨rfl, rfl, rfl⟩
  · rintro ⟨rowId, hid, hfilter⟩
    obtain ⟨row, hrow, rfl, rfl⟩ := (hid rowId).mpr rfl
    have hinst : (⟨physicalCells width row.piece rotation x lockY, rotation, x, lockY⟩ :
        InstantiatedRealization) ∈ catalog.instantiations rowId deleted :=
      mem_of_mem_filter (hfilter ▸ mem_singleton_self _)
    obtain ⟨hin, htarget, -⟩ := (h.mem_instantiations hdel.1 hallowed hrow).mp hinst
    exact ⟨hin, htarget, h.skeleton_required (mem_of_getElem? hrow)⟩

theorem forall_of_forall_lt {w : Nat} {b : BitVec w} {P : Nat → Prop}
    (h : ∀ k < w, b.getLsbD k = true → P k) (k : Nat) (hk : b.getLsbD k = true) : P k :=
  h k (lt_of_getLsbD hk) hk

/-- A target four wide and three high over an empty board, with its middle row already cleared: an
    `O` locked on the floor is split by the cleared row, and the catalog has it. -/
theorem compile_complete_and_exact_split_O : ∃ catalog,
    compileWithClearRowDomain 4 3 0 0xFFF true ⟨true, true, .ok (), true⟩ = .ok catalog ∧
      ∃ rowId, (∀ id, (∃ row, catalog.skeletons[id]? = some row ∧ row.piece = .O ∧
          row.cells = 0x303) ↔ id = rowId) ∧
        (catalog.instantiations rowId 0b010).filter (IsPlacement .zero 0 0) =
          [⟨0x33, .zero, 0, 0⟩] := by
  obtain ⟨catalog, hok⟩ : ∃ catalog, compileWithClearRowDomain 4 3 0 0xFFF true
      ⟨true, true, .ok (), true⟩ = .ok catalog := ⟨_, rfl⟩
  have hone : ∀ t, BitVec.getLsbD (0b010 : Rows) t = true → t = 1 :=
    forall_of_forall_lt (by decide)
  have hdel : InDomain 4 3 0 0xFFF true 0b010 := by
    refine ⟨fun t ht => ?_, fun _ t ht => ?_⟩
    · rw [hone t ht]
      decide
    · rw [hone t ht]
      decide
  have hin : Inside 4 3 0b010 .O .zero 0 0 := by
    unfold Inside
    decide
  have hreq : ∀ k, BitVec.getLsbD (0x303 : Board) k = true →
      BitVec.getLsbD (0xFFF : Board) k = true := forall_of_forall_lt (by decide)
  exact ⟨catalog, hok, ((compile_complete_and_exact hok hdel).1 .O .zero 0 0 0x303).mp
    ⟨hin, by decide, hreq⟩⟩

end Clearra.Proof.Executor
