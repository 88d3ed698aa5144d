import Clearra.Proof.Ctk3.Predict

/-!
# What the encodings of a field say about it

Each encoding is some view of the list of codes: its runs, the cells where it differs from another
field, the places of one colour among those that are left. These are the facts that put the field
together again, without bits.
-/

namespace Clearra.Proof.Ctk3

open Clearra.Ctk3 List

/-- Every code is a colour. -/
def ValidCodes (codes : List Nat) : Prop := ∀ code ∈ codes, code < 9

/-! ## Palettes -/

theorem testBit_colorMask (codes : List Nat) (i : Nat) :
    (colorMask codes).testBit i = decide (i ∈ codes) := by
  induction codes using List.reverseRecOn with
  | nil => simp [colorMask]
  | append_singleton codes code ih =>
    rw [colorMask, foldl_append, foldl_cons, foldl_nil, ← colorMask, Nat.testBit_or,
      ih, Nat.testBit_two_pow, ← Bool.decide_or, decide_eq_decide, mem_append,
      mem_singleton, eq_comm]

variable {codes : List Nat} {code : Nat}

theorem mem_uniqueCodes : code ∈ uniqueCodes codes ↔ code < 9 ∧ code ∈ codes := by
  rw [uniqueCodes, mem_filter, mem_range, contains_iff_mem]

theorem mem_uniqueCodes_of_valid (h : ValidCodes codes) (hcode : code ∈ codes) :
    code ∈ uniqueCodes codes := mem_uniqueCodes.mpr ⟨h code hcode, hcode⟩

theorem colorMask_lt (h : ValidCodes codes) : colorMask codes < 2 ^ 9 := by
  refine Nat.lt_pow_two_of_testBit _ fun i hi => ?_
  rw [testBit_colorMask, decide_eq_false]
  exact fun hmem => absurd (h i hmem) (by omega)

theorem validCodes_uniqueCodes (codes : List Nat) : ValidCodes (uniqueCodes codes) :=
  fun _ h => (mem_uniqueCodes.mp h).1

theorem paletteFromMask_eq {minimum mask : Nat} {palette : List Nat} (codes : List Nat)
    (hpalette : palette = (List.range' minimum (9 - minimum)).filter (decide <| · ∈ codes))
    (hmask : ∀ i, minimum ≤ i → mask.testBit i = decide (i ∈ palette)) :
    paletteFromMask mask minimum = palette := by
  rw [paletteFromMask, hpalette]
  refine filter_congr fun i hi => ?_
  rw [hmask i (mem_range'_1.mp hi).1, hpalette, decide_eq_decide, mem_filter, decide_eq_true_iff]
  exact and_iff_right hi

theorem paletteFromMask_uniqueCodes (codes : List Nat) :
    paletteFromMask (colorMask (uniqueCodes codes)) 0 = uniqueCodes codes := by
  refine paletteFromMask_eq codes ?_ fun i _ => testBit_colorMask _ i
  rw [uniqueCodes, range_eq_range']
  exact filter_congr fun i _ => by rw [contains_eq_mem]

theorem testBit_shifted (mask k i : Nat) (hi : k ≤ i) :
    ((mask >>> k) <<< k).testBit i = mask.testBit i := by
  rw [Nat.testBit_shiftLeft, Nat.testBit_shiftRight, decide_eq_true hi, Bool.true_and,
    Nat.add_sub_cancel' hi]

theorem paletteFromMask_nonEmpty (h : 0 ∉ codes) :
    paletteFromMask ((colorMask (uniqueCodes codes) >>> 1) <<< 1) 1 = uniqueCodes codes := by
  refine paletteFromMask_eq codes ?_ fun i hi => ?_
  · have hrange : List.range 9 = 0 :: List.range' 1 (9 - 1) := by decide
    rw [uniqueCodes, hrange, filter_cons_of_neg (by simpa using h)]
    exact filter_congr fun i _ => by rw [contains_eq_mem]
  · rw [testBit_shifted _ _ _ hi, testBit_colorMask]

theorem paletteFromMask_fieldPalette (codes : List Nat) :
    paletteFromMask (colorMask (fieldPalette codes)) 0 = fieldPalette codes := by
  rw [fieldPalette]
  split
  · decide
  · exact paletteFromMask_uniqueCodes codes

theorem fieldPalette_ne_nil (codes : List Nat) : fieldPalette codes ≠ [] := by
  rw [fieldPalette]
  split
  · simp
  · assumption

theorem validCodes_fieldPalette (codes : List Nat) : ValidCodes (fieldPalette codes) := by
  rw [fieldPalette]
  split
  · simp [ValidCodes]
  · exact validCodes_uniqueCodes codes

theorem mem_fieldPalette (h : ValidCodes codes) (hcode : code ∈ codes) :
    code ∈ fieldPalette codes := by
  have hmem := mem_uniqueCodes_of_valid h hcode
  rw [fieldPalette, if_neg fun hnil => by simp [hnil] at hmem]
  exact hmem

/-! ## Stores -/

@[simp] theorem length_storeAll (stores : List (Nat × Nat)) (cells : List Nat) :
    (storeAll stores cells).length = cells.length := by
  induction stores generalizing cells with
  | nil => rfl
  | cons store stores ih => exact (ih _).trans length_set

/-- Stores that say what the target says, and nothing to do where they store nothing. -/
theorem storeAll_eq {stores : List (Nat × Nat)} {cells target : List Nat}
    (hlength : cells.length = target.length)
    (hstores : ∀ store ∈ stores, target[store.1]? = some store.2)
    (hrest : ∀ i, i ∉ stores.map Prod.fst → cells[i]? = target[i]?) :
    storeAll stores cells = target := by
  induction stores generalizing cells with
  | nil => exact ext_getElem? fun i => hrest i (by simp)
  | cons store stores ih =>
    obtain ⟨hstore, hstores⟩ := forall_mem_cons.mp hstores
    refine ih (length_set.trans hlength) hstores fun i hi => ?_
    have hbound := (List.getElem?_eq_some_iff.mp hstore).1
    by_cases heq : store.1 = i
    · subst heq
      rw [getElem?_set_self (hlength ▸ hbound), hstore]
    · rw [getElem?_set_ne heq]
      refine hrest i fun hmem => ?_
      rw [map_cons, mem_cons] at hmem
      exact hmem.elim (fun h => heq h.symm) hi

/-! ## Differences -/

theorem getElem?_fitCodes (codes : List Nat) {count i : Nat} (h : i < count) :
    (fitCodes codes count)[i]? = some (codes.getD i 0) := by
  rw [fitCodes, getElem?_map, getElem?_range h]
  rfl

section

variable (codes previous : List Nat)

theorem mem_changedCells {change : Nat × Nat} : change ∈ changedCells codes previous ↔
    codes[change.1]? = some change.2 ∧ change.2 ≠ previous.getD change.1 0 := by
  rw [changedCells, mem_map]
  constructor
  · rintro ⟨⟨code, index⟩, hmem, rfl⟩
    rw [mem_filter, mem_zipIdx_iff_getElem?, decide_eq_true_iff] at hmem
    exact hmem
  · rintro ⟨hcode, hne⟩
    refine ⟨change.swap, ?_, Prod.swap_swap change⟩
    rw [mem_filter, mem_zipIdx_iff_getElem?, decide_eq_true_iff]
    exact ⟨hcode, hne⟩

theorem pairwise_changedCells :
    (changedCells codes previous).Pairwise fun left right => left.1 < right.1 := by
  have hidx : codes.zipIdx.Pairwise fun left right => left.2 < right.2 := by
    have hrange : (codes.zipIdx.map Prod.snd).Pairwise (· < ·) := by
      rw [zipIdx_map_snd]
      exact pairwise_lt_range'
    exact pairwise_map.mp hrange
  exact pairwise_map.mpr (hidx.filter _)

theorem changedCells_lt {change : Nat × Nat} (h : change ∈ changedCells codes previous) :
    change.1 < codes.length :=
  (List.getElem?_eq_some_iff.mp ((mem_changedCells codes previous).mp h).1).1

theorem length_changedCells_le : (changedCells codes previous).length ≤ codes.length := by
  rw [changedCells, length_map, ← length_zipIdx (l := codes) (i := 0)]
  exact length_filter_le _ _

theorem storeAll_changedCells :
    storeAll (changedCells codes previous) (fitCodes previous codes.length) = codes := by
  refine storeAll_eq (length_fitCodes _ _) (fun change h =>
    ((mem_changedCells codes previous).mp h).1) fun i hi => ?_
  rcases Nat.lt_or_ge i codes.length with hlt | hge
  · rw [getElem?_fitCodes previous hlt, getElem?_eq_getElem hlt]
    refine congrArg some (Eq.symm (by_contra fun hne => hi ?_))
    exact mem_map.mpr ⟨(i, codes[i]),
      (mem_changedCells codes previous).mpr ⟨getElem?_eq_getElem hlt, hne⟩, rfl⟩
  · rw [getElem?_eq_none hge, getElem?_eq_none (by rwa [length_fitCodes])]

theorem changedCells_values_mem (h : code ∈ (changedCells codes previous).map Prod.snd) :
    code ∈ codes := by
  obtain ⟨change, hchange, rfl⟩ := mem_map.mp h
  exact mem_of_getElem? ((mem_changedCells codes previous).mp hchange).1

theorem changedCells_zip : ((changedCells codes previous).map Prod.fst).zip
    ((changedCells codes previous).map Prod.snd) = changedCells codes previous := by
  rw [zip_map', map_id']

@[simp] theorem length_changeMask : (changeMask codes previous).length = codes.length := by
  rw [changeMask, length_map, length_zipIdx]

theorem getD_changeMask (i : Nat) : (changeMask codes previous).getD i false = true ↔
    ∃ code, codes[i]? = some code ∧ code ≠ previous.getD i 0 := by
  rw [getD_eq_getElem?_getD, changeMask, getElem?_map, getElem?_zipIdx]
  cases codes[i]? with
  | none => simp
  | some code => simp

theorem filter_changeMask :
    (List.range codes.length).filter (fun i => (changeMask codes previous).getD i false) =
      (changedCells codes previous).map Prod.fst := by
  refine List.Pairwise.eq_of_mem_iff (r := (· < ·)) (pairwise_lt_range.filter _)
    (pairwise_map.mpr (pairwise_changedCells codes previous)) fun i => ?_
  rw [mem_filter, mem_range, getD_changeMask, mem_map]
  constructor
  · rintro ⟨-, code, hcode, hne⟩
    exact ⟨(i, code), (mem_changedCells codes previous).mpr ⟨hcode, hne⟩, rfl⟩
  · rintro ⟨change, hchange, rfl⟩
    exact ⟨changedCells_lt codes previous hchange, change.2,
      (mem_changedCells codes previous).mp hchange⟩

theorem maskedCodes_changeMask :
    maskedCodes codes (changeMask codes previous) = (changedCells codes previous).map Prod.snd := by
  have hzip : codes.zip (changeMask codes previous) = codes.zipIdx.map fun cell =>
      (cell.1, decide (cell.1 ≠ previous.getD cell.2 0)) := by
    calc codes.zip (changeMask codes previous)
        = (codes.zipIdx.map Prod.fst).zip (changeMask codes previous) := by
          rw [zipIdx_map_fst]
      _ = _ := by
          rw [changeMask, zip_map']
  rw [maskedCodes, hzip, filter_map, map_map, changedCells, map_map]
  rfl

end

/-! ## Runs of one colour -/

/-- The cells of the runs. -/
def expandRuns (runs : List (Nat × Nat)) : List Nat :=
  runs.flatMap fun run => List.replicate run.2 run.1

theorem pushRun_cases (runs : List (Nat × Nat)) (code : Nat) :
    (∃ front length, runs = front ++ [(code, length)] ∧
      pushRun runs code = front ++ [(code, length + 1)]) ∨ pushRun runs code = runs ++ [(code, 1)] := by
  rw [pushRun]
  cases hlast : runs.getLast? with
  | none =>
    rw [getLast?_eq_none_iff.mp hlast]
    exact .inr rfl
  | some run =>
    have hsplit := dropLast_append_getLast? run hlast
    simp only
    split
    · rename_i heq
      exact .inl ⟨runs.dropLast, run.2, heq ▸ hsplit.symm, by rw [heq]⟩
    · exact .inr rfl

theorem expandRuns_append (front back : List (Nat × Nat)) :
    expandRuns (front ++ back) = expandRuns front ++ expandRuns back := flatMap_append

theorem expandRuns_singleton (run : Nat × Nat) :
    expandRuns [run] = List.replicate run.2 run.1 := by
  rw [expandRuns, flatMap_singleton]

theorem expandRuns_pushRun (runs : List (Nat × Nat)) (code : Nat) :
    expandRuns (pushRun runs code) = expandRuns runs ++ [code] := by
  rcases pushRun_cases runs code with ⟨front, length, rfl, h⟩ | h
  · rw [h, expandRuns_append, expandRuns_append, expandRuns_singleton, expandRuns_singleton,
      append_assoc, replicate_succ']
  · rw [h, expandRuns_append, expandRuns_singleton]
    rfl

theorem expandRuns_colorRuns (codes : List Nat) : expandRuns (colorRuns codes) = codes := by
  induction codes using List.reverseRecOn with
  | nil => rfl
  | append_singleton codes code ih =>
    rw [colorRuns, foldl_append, foldl_cons, foldl_nil, ← colorRuns, expandRuns_pushRun, ih]

theorem colorRuns_pos (codes : List Nat) : ∀ run ∈ colorRuns codes, 0 < run.2 := by
  induction codes using List.reverseRecOn with
  | nil => simp [colorRuns]
  | append_singleton codes code ih =>
    rw [colorRuns, foldl_append, foldl_cons, foldl_nil, ← colorRuns]
    rcases pushRun_cases (colorRuns codes) code with ⟨front, length, hruns, h⟩ | h
    · rw [hruns, forall_mem_append] at ih
      rw [h, forall_mem_append]
      exact ⟨ih.1, by simp⟩
    · rw [h, forall_mem_append]
      exact ⟨ih, by simp⟩

theorem length_le_expandRuns {runs : List (Nat × Nat)} (h : ∀ run ∈ runs, 0 < run.2) :
    runs.length ≤ (expandRuns runs).length := by
  induction runs with
  | nil => exact Nat.le_refl _
  | cons run runs ih =>
    obtain ⟨hrun, hruns⟩ := forall_mem_cons.mp h
    rw [← singleton_append, expandRuns_append, expandRuns_singleton, length_append,
      length_append, length_replicate, length_singleton]
    exact Nat.add_le_add hrun (ih hruns)

/-! ## Runs of changes -/

/-- The cells of a run of changes, with their codes. -/
def expandDeltaRun (run : Nat × List Nat) : List (Nat × Nat) :=
  (List.range' run.1 run.2.length).zip run.2

theorem pushDeltaRun_cases (runs : List (Nat × List Nat)) (change : Nat × Nat) :
    (∃ front start values, runs = front ++ [(start, values)] ∧ start + values.length = change.1 ∧
      pushDeltaRun runs change = front ++ [(start, values ++ [change.2])]) ∨
      pushDeltaRun runs change = runs ++ [(change.1, [change.2])] := by
  rw [pushDeltaRun]
  cases hlast : runs.getLast? with
  | none =>
    rw [getLast?_eq_none_iff.mp hlast]
    exact .inr rfl
  | some run =>
    have hsplit := dropLast_append_getLast? run hlast
    simp only
    split
    · rename_i heq
      exact .inl ⟨runs.dropLast, run.1, run.2, hsplit.symm, heq, rfl⟩
    · exact .inr rfl

theorem expandDeltaRun_snoc (start : Nat) (values : List Nat) (code : Nat) :
    expandDeltaRun (start, values ++ [code]) =
      expandDeltaRun (start, values) ++ [(start + values.length, code)] := by
  rw [expandDeltaRun, expandDeltaRun, length_append, length_singleton,
    range'_1_concat, zip_append (by rw [length_range'])]
  rfl

theorem flatMap_expandDeltaRun (codes previous : List Nat) :
    (deltaRuns codes previous).flatMap expandDeltaRun = changedCells codes previous := by
  have hfold : ∀ changes : List (Nat × Nat),
      (changes.foldl pushDeltaRun []).flatMap expandDeltaRun = changes := by
    intro changes
    induction changes using List.reverseRecOn with
    | nil => rfl
    | append_singleton changes change ih =>
      rw [foldl_append, foldl_cons, foldl_nil]
      rcases pushDeltaRun_cases (changes.foldl pushDeltaRun []) change with
        ⟨front, start, values, hruns, hnext, h⟩ | h
      · rw [h, flatMap_append, flatMap_singleton, expandDeltaRun_snoc, hnext]
        rw [hruns, flatMap_append, flatMap_singleton] at ih
        rw [← append_assoc, ih]
      · rw [h, flatMap_append, ih]
        rfl
  exact hfold _

theorem deltaRuns_pos (codes previous : List Nat) :
    ∀ run ∈ deltaRuns codes previous, 0 < run.2.length := by
  have hfold : ∀ changes : List (Nat × Nat),
      ∀ run ∈ changes.foldl pushDeltaRun [], 0 < run.2.length := by
    intro changes
    induction changes using List.reverseRecOn with
    | nil => simp
    | append_singleton changes change ih =>
      rw [foldl_append, foldl_cons, foldl_nil]
      rcases pushDeltaRun_cases (changes.foldl pushDeltaRun []) change with
        ⟨front, start, values, hruns, -, h⟩ | h
      · rw [hruns, forall_mem_append] at ih
        rw [h, forall_mem_append]
        exact ⟨ih.1, by simp⟩
      · rw [h, forall_mem_append]
        exact ⟨ih, by simp⟩
  exact hfold _

theorem mem_expandDeltaRun (start : Nat) {i : Nat} {values : List Nat} (h : i < values.length) :
    (start + i, values[i]) ∈ expandDeltaRun (start, values) := by
  have hlen : i < (expandDeltaRun (start, values)).length := by
    rw [expandDeltaRun, length_zip, length_range', Nat.min_self]
    exact h
  have hget : (expandDeltaRun (start, values))[i] = (start + i, values[i]) := by
    simp [expandDeltaRun]
  exact hget ▸ getElem_mem hlen

theorem length_deltaRuns_le (codes previous : List Nat) :
    (deltaRuns codes previous).length ≤ codes.length := by
  have hflat : ∀ runs : List (Nat × List Nat), (∀ run ∈ runs, 0 < run.2.length) →
      runs.length ≤ (runs.flatMap expandDeltaRun).length := by
    intro runs
    induction runs with
    | nil => exact fun _ => Nat.le_refl _
    | cons run runs ih =>
      intro h
      obtain ⟨hrun, hruns⟩ := forall_mem_cons.mp h
      have hlen : (expandDeltaRun run).length = run.2.length := by
        rw [expandDeltaRun, length_zip, length_range', Nat.min_self]
      rw [flatMap_cons, length_append, length_cons, hlen]
      have := ih hruns
      omega
  have hle := hflat _ (deltaRuns_pos codes previous)
  rw [flatMap_expandDeltaRun] at hle
  exact hle.trans (length_changedCells_le codes previous)

theorem zip_deltaRuns (runs : List (Nat × List Nat)) :
    (runs.flatMap fun run => List.range' run.1 run.2.length).zip (runs.flatMap Prod.snd) =
      runs.flatMap expandDeltaRun := by
  induction runs with
  | nil => rfl
  | cons run runs ih =>
    rw [flatMap_cons, flatMap_cons, flatMap_cons, zip_append (by rw [length_range']), ih]
    rfl

/-! ## Places of one colour -/

section

variable (codes remaining : List Nat) (code : Nat)

theorem mem_relativePositions {position : Nat} :
    position ∈ relativePositions codes remaining code ↔
      ∃ source, remaining[position]? = some source ∧ codes.getD source 0 = code := by
  rw [relativePositions, mem_map]
  constructor
  · rintro ⟨⟨source, index⟩, hmem, rfl⟩
    rw [mem_filter, mem_zipIdx_iff_getElem?, decide_eq_true_iff] at hmem
    exact ⟨source, hmem⟩
  · rintro ⟨source, hsource, hcode⟩
    refine ⟨(source, position), ?_, rfl⟩
    rw [mem_filter, mem_zipIdx_iff_getElem?, decide_eq_true_iff]
    exact ⟨hsource, hcode⟩

theorem relativePositions_lt {position : Nat}
    (h : position ∈ relativePositions codes remaining code) : position < remaining.length := by
  obtain ⟨source, hsource, -⟩ := (mem_relativePositions codes remaining code).mp h
  exact (List.getElem?_eq_some_iff.mp hsource).1

theorem pairwise_relativePositions : (relativePositions codes remaining code).Pairwise (· < ·) := by
  have hrange : (remaining.zipIdx.map Prod.snd).Pairwise (· < ·) := by
    rw [zipIdx_map_snd]
    exact pairwise_lt_range'
  exact pairwise_map.mpr ((pairwise_map.mp hrange).filter _)

theorem map_relativePositions : (relativePositions codes remaining code).map (remaining.getD · 0) =
      remaining.filter fun source => codes.getD source 0 = code := by
  have hcell : ∀ cell ∈ remaining.zipIdx.filter fun cell => decide (codes.getD cell.1 0 = code),
      remaining.getD cell.2 0 = cell.1 := by
    intro cell hcell
    have hget := mem_zipIdx_iff_getElem?.mp (mem_of_mem_filter hcell)
    rw [getD_eq_getElem?_getD, hget]
    rfl
  calc (relativePositions codes remaining code).map (remaining.getD · 0)
      = (remaining.zipIdx.filter fun cell => decide (codes.getD cell.1 0 = code)).map Prod.fst := by
        rw [relativePositions, map_map]
        exact map_congr_left hcell
    _ = (remaining.zipIdx.map Prod.fst).filter fun source => codes.getD source 0 = code := by
        rw [filter_map]
        rfl
    _ = _ := by rw [zipIdx_map_fst]

theorem removeRelativePositions_relativePositions :
    removeRelativePositions remaining (relativePositions codes remaining code) =
      remaining.filter fun source => codes.getD source 0 ≠ code := by
  have hcell : ∀ cell ∈ remaining.zipIdx,
      (!(relativePositions codes remaining code).contains cell.2) =
        decide (codes.getD cell.1 0 ≠ code) := by
    intro cell hcell
    have hget := mem_zipIdx_iff_getElem?.mp hcell
    rw [contains_eq_mem, ← decide_not, decide_eq_decide,
      mem_relativePositions codes remaining code, hget]
    simp
  calc removeRelativePositions remaining (relativePositions codes remaining code)
      = (remaining.zipIdx.filter fun cell => decide (codes.getD cell.1 0 ≠ code)).map Prod.fst :=
        congrArg (List.map Prod.fst) (filter_congr hcell)
    _ = (remaining.zipIdx.map Prod.fst).filter fun source => codes.getD source 0 ≠ code := by
        rw [filter_map]
        rfl
    _ = _ := by rw [zipIdx_map_fst]

end

/-! ## Occupied cells -/

theorem mem_occupiedCells {occupied : List Bool} {i : Nat} :
    i ∈ occupiedCells occupied ↔ occupied[i]? = some true := by
  rw [occupiedCells, mem_map]
  constructor
  · rintro ⟨⟨value, j⟩, hmem, rfl⟩
    obtain ⟨hmem, hvalue⟩ := mem_filter.mp hmem
    rw [mem_zipIdx_iff_getElem?] at hmem
    exact hmem.trans (congrArg some hvalue)
  · intro h
    exact ⟨(true, i), mem_filter.mpr ⟨mem_zipIdx_iff_getElem?.mpr h, rfl⟩, rfl⟩

theorem fitCodes_self (codes : List Nat) : fitCodes codes codes.length = codes := by
  refine ext_getElem (length_fitCodes _ _) fun i hi hi' => ?_
  rw [getElem_eq_iff, getElem?_fitCodes codes hi', getD_eq_getElem _ _ hi']

@[simp] theorem length_occupiedMask (codes : List Nat) :
    (occupiedMask codes).length = codes.length := length_map _

theorem occupiedCells_occupiedMask (codes : List Nat) :
    occupiedCells (occupiedMask codes) =
      (List.range codes.length).filter fun i => codes.getD i 0 ≠ 0 := by
  have hsorted : (occupiedCells (occupiedMask codes)).Pairwise (· < ·) := by
    have hrange : ((occupiedMask codes).zipIdx.map Prod.snd).Pairwise (· < ·) := by
      rw [zipIdx_map_snd]
      exact pairwise_lt_range'
    exact pairwise_map.mpr ((pairwise_map.mp hrange).filter _)
  refine List.Pairwise.eq_of_mem_iff hsorted (pairwise_lt_range.filter _) fun i => ?_
  rw [mem_occupiedCells, mem_filter, mem_range, occupiedMask, getElem?_map, getD_eq_getElem?_getD]
  rcases Nat.lt_or_ge i codes.length with hlt | hge
  · simp [hlt]
  · simp [hge]

theorem length_filter_eq_count (codes : List Nat) (code : Nat) :
    ((List.range codes.length).filter fun i => codes.getD i 0 = code).length = codes.count code := by
  have hmap : (List.range codes.length).map (codes.getD · 0) = codes := fitCodes_self codes
  conv_rhs => rw [← hmap]
  rw [List.count, countP_map, countP_eq_length_filter]
  rfl

/-- Colours with four cells each are a quarter as many as the cells. -/
theorem count_occupiedMask {codes palette : List Nat} (hnodup : palette.Nodup)
    (hmem : ∀ code, code ∈ palette ↔ code ∈ codes ∧ code ≠ 0)
    (hfour : ∀ code ∈ palette, codes.count code = 4) :
    (occupiedMask codes).count true = palette.length * 4 := by
  have hcount : (occupiedMask codes).count true = (codes.filter fun code => code ≠ 0).length := by
    rw [occupiedMask, List.count, countP_map, countP_eq_length_filter]
    congr 1
    exact filter_congr fun code _ => by simp
  have hperm : palette.Perm (codes.filter fun code => code ≠ 0).dedup := by
    refine (perm_ext_iff_of_nodup hnodup (nodup_dedup _)).mpr fun code => ?_
    rw [hmem, mem_dedup, mem_filter, decide_eq_true_iff]
  have hsum : ((codes.filter fun code => code ≠ 0).dedup.map
      fun code => (codes.filter fun code => code ≠ 0).count code).sum =
        (palette.map fun _ => 4).sum := by
    rw [← (hperm.map _).sum_eq]
    refine congrArg List.sum (map_congr_left fun code hcode => ?_)
    rw [count_filter (by simpa using ((hmem code).mp hcode).2), hfour code hcode]
  rw [hcount, ← sum_map_count_dedup_eq_length, hsum, map_const', sum_replicate, smul_eq_mul]

/-! ## Painting -/

theorem getElem?_storeAll_color (indices : List Nat) (code : Nat) (cells : List Nat) (i : Nat) :
    (storeAll (indices.map fun index => (index, code)) cells)[i]? =
      if i ∈ indices ∧ i < cells.length then some code else cells[i]? := by
  induction indices generalizing cells with
  | nil => simp [storeAll]
  | cons index indices ih =>
    change (storeAll (indices.map fun index => (index, code)) (cells.set index code))[i]? = _
    rw [ih, length_set, getElem?_set]
    by_cases heq : index = i
    · subst heq
      by_cases hlt : index < cells.length
      · simp [hlt]
      · simp [hlt]
    · simp [heq, Ne.symm heq]

/-- The field is painted except for the cells that remain. -/
structure PaintedBut (codes remaining cells : List Nat) : Prop where
  length_eq : cells.length = codes.length
  inside : ∀ i ∈ remaining, i < codes.length
  size : remaining.length ≤ codes.length
  painted : ∀ i, i ∉ remaining → cells[i]? = codes[i]?

theorem PaintedBut.step {codes remaining cells : List Nat} (h : PaintedBut codes remaining cells)
    (code : Nat) : PaintedBut codes (remaining.filter fun i => codes.getD i 0 ≠ code)
      (storeAll ((remaining.filter fun i => codes.getD i 0 = code).map fun i => (i, code)) cells) where
  length_eq := (length_storeAll _ _).trans h.length_eq
  inside i hi := h.inside i (mem_of_mem_filter hi)
  size := (length_filter_le _ _).trans h.size
  painted i hi := by
    rw [getElem?_storeAll_color, h.length_eq]
    by_cases hmem : i ∈ remaining
    · have hlt := h.inside i hmem
      have hcode : codes.getD i 0 = code := by
        by_contra hne
        exact hi (mem_filter.mpr ⟨hmem, by simpa using hne⟩)
      rw [if_pos ⟨mem_filter.mpr ⟨hmem, by simpa using hcode⟩, hlt⟩, ← hcode,
        getD_eq_getElem _ _ hlt, getElem?_eq_getElem hlt]
    · rw [if_neg fun hin => hmem (mem_of_mem_filter hin.1)]
      exact h.painted i hmem

theorem PaintedBut.last {codes remaining cells : List Nat} (h : PaintedBut codes remaining cells)
    (hcode : ∀ i ∈ remaining, codes.getD i 0 = code) :
    storeAll (remaining.map fun i => (i, code)) cells = codes := by
  refine ext_getElem? fun i => ?_
  rw [getElem?_storeAll_color, h.length_eq]
  by_cases hmem : i ∈ remaining
  · have hlt := h.inside i hmem
    rw [if_pos ⟨hmem, hlt⟩, ← hcode i hmem, getD_eq_getElem _ _ hlt, getElem?_eq_getElem hlt]
  · rw [if_neg fun hin => hmem hin.1]
    exact h.painted i hmem

end Clearra.Proof.Ctk3
