import Clearra.Proof.Ctk3.Cell

/-!
# Painting a field, and the choice of its encoding

The encodings that name the colours one after another: each says where its cells are among those that
are left. With them every encoding the encoder may choose is known to read back, and then the choice
is.
-/

namespace Clearra.Proof.Ctk3

open Clearra.Ctk3 Lib List

/-! ## Occupied cells -/

variable {codes : List Nat}

theorem encodes_occupied {palette : List Nat} (hpalette : palette.length ≤ 9)
    (hcodes : ∀ code ∈ codes, code ≠ 0 → code ∈ palette) :
    Encodes (writeMany (writePaletteIndex palette) (codes.filter (· ≠ 0)))
      (readOccupied palette (occupiedMask codes)) codes := by
  induction codes with
  | nil => exact .pure []
  | cons code codes ih =>
    obtain ⟨hcode, hcodes⟩ := forall_mem_cons.mp hcodes
    have hrest : Encodes (writeMany (writePaletteIndex palette) (codes.filter (· ≠ 0)))
        (do let rest ← readOccupied palette (occupiedMask codes); pure (code :: rest))
        (code :: codes) := (ih hcodes).andThen (.pure _)
    by_cases hzero : code = 0
    · subst hzero
      rw [filter_cons_of_neg (by simp)]
      exact hrest
    · have hset : decide (code ≠ 0) = true := decide_eq_true hzero
      rw [filter_cons_of_pos (by simpa using hzero), occupiedMask, map_cons, hset]
      exact (encodes_paletteIndex hpalette (hcode hzero) _).seq hrest

variable {b : Build}

theorem encodes_occupiedMask (hb : 32 ≤ b.pointerBits) (hcells : codes.length < 2 ^ 32) :
    Encodes (writeOccupancyMask (occupiedMask codes)) (readOccupancyMask b codes.length)
      (occupiedMask codes) := by
  have hmask := encodes_occupancyMask hb (occupiedMask codes) (by rwa [length_occupiedMask])
  rwa [length_occupiedMask] at hmask

theorem encodes_occupancyField (hb : 32 ≤ b.pointerBits) (hcells : codes.length < 2 ^ 32)
    (hcodes : ValidCodes codes) :
    Encodes (writeOccupancyMask (occupiedMask codes) >=>
      writeBits (colorMask (uniqueCodes (codes.filter (· ≠ 0))) >>> 1) 8 >=>
      writeMany (writePaletteIndex (uniqueCodes (codes.filter (· ≠ 0)))) (codes.filter (· ≠ 0)))
      (readOccupancyField b codes.length) codes := by
  have hzero : 0 ∉ codes.filter (· ≠ 0) := by simp
  have hmem : ∀ value ∈ codes.filter (· ≠ 0), value ∈ codes := fun _ => mem_of_mem_filter
  have hmask : colorMask (uniqueCodes (codes.filter (· ≠ 0))) >>> 1 < 2 ^ 32 :=
    lt_of_le_of_lt (Nat.shiftRight_le _ _)
      ((colorMask_lt (validCodes_uniqueCodes _)).trans (by decide))
  refine (encodes_occupiedMask hb hcells).seq ((encodes_writeBits hmask).seq ?_)
  rw [paletteFromMask_nonEmpty hzero]
  refine encodes_failIf ?_ (encodes_occupied (length_uniqueCodes_le _) fun code hcode hne => ?_)
  · rintro ⟨hany, hnil⟩
    obtain ⟨set, hset, htrue⟩ := any_eq_true.mp hany
    obtain ⟨code, hcode, rfl⟩ := mem_map.mp hset
    have hnone := values_eq_nil_of_palette hcodes hmem hnil
    exact absurd (mem_filter.mpr ⟨hcode, htrue⟩) (by rw [hnone]; simp)
  · exact mem_uniqueCodes.mpr ⟨hcodes code hcode, mem_filter.mpr ⟨hcode, by simpa using hne⟩⟩

/-! ## Painting -/

variable {remaining cells : List Nat}

theorem paint_eq (hremaining : ∀ i ∈ remaining, i < cells.length) (code : Nat)
    {positions : List Nat} (hpositions : ∀ p ∈ positions, p < remaining.length) :
    paint remaining code positions cells =
      pure (storeAll ((positions.map (remaining.getD · 0)).map fun i => (i, code)) cells) := by
  induction positions generalizing cells with
  | nil => rfl
  | cons position positions ih =>
    obtain ⟨hposition, hpositions⟩ := forall_mem_cons.mp hpositions
    have hindexed : indexed remaining position = pure remaining[position] := by
      rw [indexed, getElem?_eq_getElem hposition]
    rw [paint, hindexed, pure_bind, stored_of_lt (hremaining _ (getElem_mem hposition)),
      pure_bind, ih (by rwa [length_set]) hpositions, map_cons, map_cons,
      getD_eq_getElem _ _ hposition]
    rfl

theorem paintAll_eq (code : Nat) (hremaining : ∀ i ∈ remaining, i < cells.length) :
    paintAll code remaining cells = pure (storeAll (remaining.map fun i => (i, code)) cells) := by
  induction remaining generalizing cells with
  | nil => rfl
  | cons index remaining ih =>
    obtain ⟨hindex, hremaining⟩ := forall_mem_cons.mp hremaining
    rw [paintAll, stored_of_lt hindex, pure_bind, ih (by rwa [length_set])]
    rfl

/-- One colour: its places are written, read and painted, and the cells without it remain. -/
theorem encodes_paintColor {α : Type} (hcells : codes.length < 2 ^ 32)
    (h : PaintedBut codes remaining cells) (code : Nat) (reason : String) {f : Write}
    {q : List Nat → List Nat → Read α} {a : α}
    (hq : Encodes f (q (remaining.filter fun i => codes.getD i 0 ≠ code)
      (storeAll ((remaining.filter fun i => codes.getD i 0 = code).map fun i => (i, code)) cells)) a) :
    Encodes (writeCombination remaining.length (relativePositions codes remaining code) >=> f) (do
      let positions ← readCombination remaining.length
        (relativePositions codes remaining code).length reason
      let cells ← paint remaining code positions cells
      q (removeRelativePositions remaining positions) cells) a := by
  have hlt : ∀ p ∈ relativePositions codes remaining code, p < remaining.length := fun _ =>
    relativePositions_lt codes remaining code
  refine (encodes_combination (h.size.trans_lt hcells)
    (pairwise_relativePositions codes remaining code) hlt reason).seq ?_
  rw [paint_eq (fun i hi => h.length_eq ▸ h.inside i hi) code hlt, pure_bind,
    map_relativePositions, removeRelativePositions_relativePositions]
  exact hq

theorem filter_filter_not_mem (codes : List Nat) (remaining palette : List Nat) (code : Nat) :
    (remaining.filter fun i => codes.getD i 0 ≠ code).filter (fun i => codes.getD i 0 ∉ palette) =
      remaining.filter fun i => codes.getD i 0 ∉ code :: palette := by
  rw [filter_filter]
  refine filter_congr fun i _ => ?_
  rw [← Bool.decide_and, decide_eq_decide, mem_cons, not_or]
  exact and_comm

theorem encodes_multiset (hcells : codes.length < 2 ^ 32) (palette : List Nat)
    (h : PaintedBut codes remaining cells) :
    ∃ painted, PaintedBut codes (remaining.filter fun i => codes.getD i 0 ∉ palette) painted ∧
      Encodes (writeMultiset codes palette remaining) (readMultiset palette remaining cells)
        (painted, remaining.filter fun i => codes.getD i 0 ∉ palette) := by
  induction palette generalizing remaining cells with
  | nil =>
    have hall : (remaining.filter fun i => codes.getD i 0 ∉ ([] : List Nat)) = remaining := by simp
    rw [hall]
    exact ⟨cells, h, Encodes.pure _⟩
  | cons code palette ih =>
    obtain ⟨painted, hpainted, hencodes⟩ := ih (h.step code)
    rw [filter_filter_not_mem] at hpainted hencodes
    refine ⟨painted, hpainted, (encodes_writeVarUint _).seq (encodes_failIf ?_ ?_)⟩
    · have hle := (length_filter_le (fun i => decide (codes.getD i 0 = code)) remaining)
      rw [← map_relativePositions, length_map] at hle
      omega
    · refine encodes_paintColor hcells h code _ ?_
      rw [removeRelativePositions_relativePositions]
      exact hencodes

theorem encodes_multisetField (hcells : codes.length < 2 ^ 32) (hcodes : ValidCodes codes) :
    Encodes (writeBits (colorMask (fieldPalette codes)) 9 >=>
      writeMultiset codes (fieldPalette codes).dropLast (List.range codes.length))
      (readMultisetEncoding codes.length) codes := by
  have hstart : PaintedBut codes (List.range codes.length) (List.replicate codes.length 255) := by
    refine ⟨length_replicate, fun i => mem_range.mp, by rw [length_range], fun i hi => ?_⟩
    have hge : codes.length ≤ i := Nat.le_of_not_lt fun hlt => hi (mem_range.mpr hlt)
    rw [getElem?_eq_none (by rwa [length_replicate]), getElem?_eq_none hge]
  have hne := fieldPalette_ne_nil codes
  have hlast := getLast?_eq_some_getLast hne
  obtain ⟨painted, hpainted, hencodes⟩ :=
    encodes_multiset hcells (fieldPalette codes).dropLast hstart
  refine (encodes_colorMask (validCodes_fieldPalette codes)).seq ?_
  rw [paletteFromMask_fieldPalette]
  refine encodes_orFail hlast (hencodes.andThen ?_)
  simp only
  rw [paintAll_eq _ fun i hi => hpainted.length_eq ▸ hpainted.inside i hi,
    hpainted.last fun i hi => ?_]
  · exact .pure codes
  · have hlt := hpainted.inside i hi
    have hmem := mem_fieldPalette hcodes (getElem_mem hlt)
    rw [← dropLast_append_getLast hne, mem_append, mem_singleton] at hmem
    have hnot := of_decide_eq_true (mem_filter.mp hi).2
    rw [getD_eq_getElem _ _ hlt] at hnot ⊢
    exact hmem.resolve_left hnot

/-- Every colour has four of the cells that remain. -/
theorem encodes_tetrominoes (hcells : codes.length < 2 ^ 32) {palette : List Nat}
    (hnodup : palette.Nodup) (h : PaintedBut codes remaining cells)
    (hfour : ∀ code ∈ palette, (remaining.filter fun i => codes.getD i 0 = code).length = 4) :
    ∃ painted, PaintedBut codes (remaining.filter fun i => codes.getD i 0 ∉ palette) painted ∧
      Encodes (writeTetrominoes codes palette remaining) (readTetrominoes palette remaining cells)
        (painted, remaining.filter fun i => codes.getD i 0 ∉ palette) := by
  induction palette generalizing remaining cells with
  | nil =>
    have hall : (remaining.filter fun i => codes.getD i 0 ∉ ([] : List Nat)) = remaining := by simp
    rw [hall]
    exact ⟨cells, h, Encodes.pure _⟩
  | cons code palette ih =>
    obtain ⟨hnot, hnodup⟩ := nodup_cons.mp hnodup
    obtain ⟨hcode, hfour⟩ := forall_mem_cons.mp hfour
    have hlength : (relativePositions codes remaining code).length = 4 := by
      rw [← hcode, ← map_relativePositions, length_map]
    -- The cells of the other colours are still there.
    have hfour' : ∀ other ∈ palette, ((remaining.filter fun i => codes.getD i 0 ≠ code).filter
        fun i => codes.getD i 0 = other).length = 4 := by
      intro other hother
      rw [← hfour other hother, filter_filter]
      congr 1
      refine filter_congr fun i _ => ?_
      rw [← Bool.decide_and, decide_eq_decide]
      refine and_iff_left_of_imp fun heq hcode => hnot ?_
      rwa [← hcode, heq]
    obtain ⟨painted, hpainted, hencodes⟩ := ih hnodup (h.step code) hfour'
    rw [filter_filter_not_mem] at hpainted hencodes
    have hcolor := encodes_paintColor hcells h code "tetromino color rank is invalid"
      (q := readTetrominoes palette) hencodes
    rw [writeCombination, hlength, ← removeRelativePositions_relativePositions] at hcolor
    exact ⟨painted, hpainted, hcolor⟩

theorem mem_tetrominoPalette (hcodes : ValidCodes codes) (hgray : 1 ∉ codes) (code : Nat) :
    code ∈ tetrominoPalette codes ↔ code ∈ codes ∧ code ≠ 0 := by
  rw [tetrominoPalette, mem_filter, mem_range'_1, decide_eq_true_iff, Ne, count_eq_zero, not_not]
  constructor
  · rintro ⟨hrange, hmem⟩
    exact ⟨hmem, by omega⟩
  · rintro ⟨hmem, hne⟩
    have hlt := hcodes code hmem
    have hone : code ≠ 1 := fun heq => hgray (heq ▸ hmem)
    exact ⟨by omega, hmem⟩

theorem encodes_tetrominoField (hb : 32 ≤ b.pointerBits) (hcells : codes.length < 2 ^ 32)
    (hcodes : ValidCodes codes) (hgray : 1 ∉ codes) (hne : tetrominoPalette codes ≠ [])
    (hfour : ∀ code ∈ tetrominoPalette codes, codes.count code = 4) :
    Encodes (writeOccupancyMask (occupiedMask codes) >=>
      writeBits (colorMask (tetrominoPalette codes) >>> 2) 7 >=>
      writeTetrominoes codes (tetrominoPalette codes).dropLast (occupiedCells (occupiedMask codes)))
      (readTetrominoColorEncoding b codes.length) codes := by
  have hmem := mem_tetrominoPalette hcodes hgray
  have hnodup : (tetrominoPalette codes).Nodup := List.Nodup.filter _ nodup_range'
  have hvalid : ValidCodes (tetrominoPalette codes) := fun code h => hcodes code ((hmem code).mp h).1
  have hmask : colorMask (tetrominoPalette codes) >>> 2 < 2 ^ 32 :=
    lt_of_le_of_lt (Nat.shiftRight_le _ _) ((colorMask_lt hvalid).trans (by decide))
  have hpalette : paletteFromMask ((colorMask (tetrominoPalette codes) >>> 2) <<< 2) 2 =
      tetrominoPalette codes := by
    refine paletteFromMask_eq codes (filter_congr fun i _ => ?_) fun i hi => ?_
    · rw [decide_eq_decide, Ne, count_eq_zero, not_not]
    · rw [testBit_shifted _ _ _ hi, testBit_colorMask]
  have hstart : PaintedBut codes (occupiedCells (occupiedMask codes))
      (List.replicate codes.length 0) := by
    rw [occupiedCells_occupiedMask]
    refine ⟨length_replicate, fun i hi => mem_range.mp (mem_of_mem_filter hi),
      (length_filter_le _ _).trans (by rw [length_range]), fun i hi => ?_⟩
    rcases Nat.lt_or_ge i codes.length with hlt | hge
    · have hzero : codes.getD i 0 = 0 := by
        by_contra hne
        exact hi (mem_filter.mpr ⟨mem_range.mpr hlt, by simpa using hne⟩)
      rw [getD_eq_getElem _ _ hlt] at hzero
      rw [getElem?_replicate_of_lt hlt, getElem?_eq_getElem hlt, hzero]
    · rw [getElem?_eq_none (by rwa [length_replicate]), getElem?_eq_none hge]
  have hfour' : ∀ code ∈ (tetrominoPalette codes).dropLast,
      ((occupiedCells (occupiedMask codes)).filter fun i => codes.getD i 0 = code).length = 4 := by
    intro code hcode
    have hin := mem_of_mem_dropLast hcode
    rw [← hfour code hin, ← length_filter_eq_count, occupiedCells_occupiedMask, filter_filter]
    congr 1
    refine filter_congr fun i _ => ?_
    rw [← Bool.decide_and, decide_eq_decide]
    exact and_iff_left_of_imp fun heq => heq ▸ ((hmem code).mp hin).2
  obtain ⟨painted, hpainted, hencodes⟩ := encodes_tetrominoes hcells
    (hnodup.sublist (dropLast_sublist _)) hstart hfour'
  refine (encodes_occupiedMask hb hcells).seq ((encodes_writeBits hmask).seq ?_)
  rw [hpalette]
  refine encodes_orFail (getLast?_eq_some_getLast hne) (encodes_failIf ?_ (hencodes.andThen ?_))
  · rw [not_not]
    exact count_occupiedMask hnodup hmem hfour
  simp only
  rw [paintAll_eq _ fun i hi => hpainted.length_eq ▸ hpainted.inside i hi,
    hpainted.last fun i hi => ?_]
  · exact .pure codes
  · have hlt := hpainted.inside i hi
    obtain ⟨hoccupied, hnot⟩ := mem_filter.mp hi
    rw [occupiedCells_occupiedMask, mem_filter, decide_eq_true_iff,
      getD_eq_getElem _ _ hlt] at hoccupied
    have hin := (hmem _).mpr ⟨getElem_mem hlt, hoccupied.2⟩
    rw [← dropLast_append_getLast hne, mem_append, mem_singleton] at hin
    have hnot := of_decide_eq_true hnot
    rw [getD_eq_getElem _ _ hlt] at hnot ⊢
    exact hin.resolve_left hnot

/-! ## The choice -/

variable {previous : Option (List Nat)} {c : BitWriter}

theorem candidate_mode {mode modeWidth : Nat} (hmode : mode < 16) {p : Read (List Nat)}
    (hp : readField b codes.length previous modeWidth mode = p) {f : Write} (hf : Encodes f p codes)
    (hc : (writeBits mode modeWidth >=> f) .empty = .ok c) :
    Candidate (readCellEncoding b codes.length previous modeWidth) codes c := by
  refine .of_encodes ((encodes_writeBits (by omega)).seq ?_) hc
  rw [hp]
  exact hf

theorem candidate_single {mode modeWidth : Nat} (hmode : mode < 16)
    (hp : readField b codes.length previous modeWidth mode = pure codes)
    (hc : singleModeEncoding mode modeWidth = .ok c) :
    Candidate (readCellEncoding b codes.length previous modeWidth) codes c := by
  refine .of_encodes ((encodes_writeBits (by omega)).andThen ?_) hc
  rw [hp]
  exact .pure codes

variable {l : List BitWriter}

theorem candidateIf_eq_ok {p : Prop} [Decidable p] {e : Encoding} (h : candidateIf p e = .ok l) :
    ∀ c ∈ l, p ∧ e = .ok c := by
  rw [candidateIf] at h
  split at h
  · rename_i hp
    obtain ⟨c, hc, rfl⟩ := map_eq_ok.mp h
    intro c' hc'
    rw [mem_singleton.mp hc']
    exact ⟨hp, hc⟩
  · cases h
    simp

theorem fitCodes_of_arraysEqualFitted {codes previous : List Nat}
    (h : arraysEqualFitted codes previous = true) : fitCodes previous codes.length = codes := by
  refine ext_getElem (length_fitCodes _ _) fun i hi hi' => ?_
  rw [getElem_eq_iff, getElem?_fitCodes previous hi']
  rw [arraysEqualFitted, all_eq_true] at h
  have hcell := h (codes[i], i) (mem_zipIdx_iff_getElem?.mpr (getElem?_eq_getElem hi'))
  exact congrArg some (of_decide_eq_true hcell).symm

variable {modeWidth : Nat}

theorem candidate_combinatorialDeltaEncoding (hcells : codes.length < 2 ^ 32)
    (hcodes : ValidCodes codes) {previous : List Nat} (hwidth : 4 ≤ modeWidth)
    (hc : combinatorialDeltaEncoding codes previous modeWidth = .ok c) :
    Candidate (readCellEncoding b codes.length (some previous) modeWidth) codes c :=
  candidate_mode (by decide) (by simp [readField, hwidth])
    (encodes_combinationDeltaField hcells hcodes previous) hc

section

variable {b : Build} (hb : 32 ≤ b.pointerBits) {codes : List Nat} (hcells : codes.length < 2 ^ 32)
  (hcodes : ValidCodes codes)
include hb hcells hcodes

theorem candidate_deltaEncoding {previous : List Nat}
    (hc : deltaEncoding codes previous modeWidth = .ok c) :
    Candidate (readCellEncoding b codes.length (some previous) modeWidth) codes c :=
  candidate_mode (by decide) rfl (encodes_deltaField hb hcells hcodes previous) hc

section

variable {previous : List Nat} {modeWidth : Nat} (hwidth : 4 ≤ modeWidth) {c : BitWriter}
include hwidth

theorem candidate_changeMaskEncoding (hc : changeMaskEncoding codes previous modeWidth = .ok c) :
    Candidate (readCellEncoding b codes.length (some previous) modeWidth) codes c :=
  candidate_mode (by decide) (by simp [readField, hwidth])
    (encodes_maskDeltaField hb hcells hcodes previous) hc

theorem candidate_deltaRunEncoding (hc : deltaRunEncoding codes previous modeWidth = .ok c) :
    Candidate (readCellEncoding b codes.length (some previous) modeWidth) codes c :=
  candidate_mode (by decide) (by simp [readField, hwidth])
    (encodes_runDeltaField hb hcells hcodes previous) hc

theorem candidate_singleColorDeltaEncoding {o : Option BitWriter}
    (ho : singleColorDeltaEncoding codes previous modeWidth = .ok o) (hc : c ∈ o.toList) :
    Candidate (readCellEncoding b codes.length (some previous) modeWidth) codes c := by
  rw [singleColorDeltaEncoding] at ho
  split at ho
  · rename_i color hcolor
    obtain ⟨c', hc', rfl⟩ := map_eq_ok.mp ho
    obtain rfl : c = c' := by simpa using hc
    exact candidate_mode (by decide) (by simp [readField, hwidth])
      (encodes_colorDeltaField hb hcells hcodes previous hcolor) hc'
  · cases ho
    simp at hc

end

theorem candidates_wideDelta {previous : List Nat}
    (h : wideDeltaCandidates codes previous modeWidth = .ok l) : ∀ c ∈ l,
      Candidate (readCellEncoding b codes.length (some previous) modeWidth) codes c := by
  rw [wideDeltaCandidates] at h
  split at h
  · rename_i hwidth
    simp only [bind_eq_ok] at h
    obtain ⟨mask, hmask, runs, hruns, single, hsingle, combination, hcombination, hl⟩ := h
    cases hl
    intro c hc
    simp only [mem_append, mem_cons, not_mem_nil, or_false] at hc
    rcases hc with ((rfl | rfl) | hc) | rfl
    · exact candidate_changeMaskEncoding hb hcells hcodes hwidth hmask
    · exact candidate_deltaRunEncoding hb hcells hcodes hwidth hruns
    · exact candidate_singleColorDeltaEncoding hb hcells hcodes hwidth hsingle hc
    · exact candidate_combinatorialDeltaEncoding hcells hcodes hwidth hcombination
  · cases h
    simp

theorem candidates_delta (h : deltaCandidates codes previous modeWidth = .ok l) : ∀ c ∈ l,
      Candidate (readCellEncoding b codes.length previous modeWidth) codes c := by
  cases previous with
  | none =>
    cases h
    simp
  | some previous =>
    simp only [deltaCandidates, bind_eq_ok] at h
    obtain ⟨delta, hdelta, wide, hwide, hl⟩ := h
    cases hl
    exact forall_mem_cons.mpr ⟨candidate_deltaEncoding hb hcells hcodes hdelta,
      candidates_wideDelta hb hcells hcodes hwide⟩

theorem candidate_tetromino (hwidth : 3 ≤ modeWidth) {o : Option BitWriter}
    (ho : tetrominoColorEncoding codes modeWidth = .ok o) (hc : c ∈ o.toList) :
    Candidate (readCellEncoding b codes.length previous modeWidth) codes c := by
  rw [tetrominoColorEncoding] at ho
  split at ho
  · cases ho
    simp at hc
  · rename_i happlies
    rw [not_or, not_or] at happlies
    obtain ⟨hgray, hne, hfour⟩ := happlies
    obtain ⟨c', hc', rfl⟩ := map_eq_ok.mp ho
    obtain rfl : c = c' := by simpa using hc
    exact candidate_mode (by decide) (by simp [readField, hwidth])
      (encodes_tetrominoField hb hcells hcodes (by simpa using hgray) hne
        (by simpa using hfour)) hc'

theorem candidates_multiset (hwidth : 3 ≤ modeWidth) {includeMultiset : Bool}
    (h : multisetCandidates codes previous modeWidth includeMultiset = .ok l) : ∀ c ∈ l,
      Candidate (readCellEncoding b codes.length previous modeWidth) codes c := by
  rw [multisetCandidates] at h
  split at h
  · simp only [bind_eq_ok] at h
    obtain ⟨zero, hzero, copy, hcopy, multiset, hmultiset, tetrominoes, htetrominoes, hl⟩ := h
    cases hl
    intro c hc
    simp only [mem_append, mem_singleton] at hc
    rcases hc with ((hc | hc) | rfl) | hc
    · obtain ⟨hall, hc⟩ := candidateIf_eq_ok hzero c hc
      have hempty : List.replicate codes.length 0 = codes :=
        (eq_replicate_iff.mpr ⟨rfl, by simpa using hall⟩).symm
      refine candidate_single (by decide) ?_ hc
      rw [readField]
      simp [hwidth, hempty]
    · obtain ⟨hany, hc⟩ := candidateIf_eq_ok hcopy c hc
      cases previous with
      | none => simp at hany
      | some previous =>
        refine candidate_single (by decide) ?_ hc
        rw [readField]
        simp [hwidth, fittedPrevious_some, fitCodes_of_arraysEqualFitted hany]
    · exact candidate_mode (by decide) (by simp [readField, hwidth])
        (encodes_multisetField hcells hcodes) hmultiset
    · exact candidate_tetromino hb hcells hcodes hwidth htetrominoes hc
  · cases h
    simp

/-- Whichever encoding is the shortest, the field is read back. -/
theorem encodes_bestCellEncoding (previous : Option (List Nat)) (hwidth : 3 ≤ modeWidth)
    (includeMultiset : Bool) :
    Encodes (writeBestCellEncoding codes previous modeWidth includeMultiset)
      (readCellEncoding b codes.length previous modeWidth) codes := by
  refine .given fun palette hpalette => .given fun runs hruns => .given fun occupancy hoccupancy =>
    .given fun deltas hdeltas => .given fun others hothers => encodes_append_shortest ?_
  intro c hc
  simp only [mem_append, mem_cons, not_mem_nil, or_false] at hc
  rcases hc with rfl | ((rfl | rfl) | hc) | hc
  · exact candidate_mode (by decide) rfl (encodes_paletteField hcodes) hpalette
  · exact candidate_mode (by decide) rfl (encodes_runField hb hcells hcodes) hruns
  · exact candidate_mode (by decide) (by simp [readField])
      (encodes_occupancyField hb hcells hcodes) hoccupancy
  · exact candidates_delta hb hcells hcodes hdeltas c hc
  · exact candidates_multiset hb hcells hcodes hwidth hothers c hc

theorem encodes_bestPredictedCellEncoding (predictor : List Nat) (hwidth : 4 ≤ modeWidth) :
    Encodes (writeBestPredictedCellEncoding codes predictor modeWidth)
      (readCellEncoding b codes.length (some predictor) modeWidth) codes := by
  refine .given fun delta hdelta => .given fun mask hmask => .given fun runs hruns =>
    .given fun combination hcombination => .given fun copy hcopy => .given fun single hsingle =>
    encodes_append_shortest ?_
  intro c hc
  simp only [mem_append, mem_cons, not_mem_nil, or_false] at hc
  rcases hc with rfl | ((rfl | rfl | rfl) | hc) | hc
  · exact candidate_deltaEncoding hb hcells hcodes hdelta
  · exact candidate_changeMaskEncoding hb hcells hcodes hwidth hmask
  · exact candidate_deltaRunEncoding hb hcells hcodes hwidth hruns
  · exact candidate_combinatorialDeltaEncoding hcells hcodes hwidth hcombination
  · obtain ⟨heq, hc⟩ := candidateIf_eq_ok hcopy c hc
    refine candidate_single (by decide) ?_ hc
    have hwidth' : 3 ≤ modeWidth := by omega
    rw [readField, ← heq]
    simp [hwidth', fittedPrevious_some, fitCodes_self]
  · exact candidate_singleColorDeltaEncoding hb hcells hcodes hwidth hsingle hc

end

end Clearra.Proof.Ctk3
