import Clearra.Proof.Ctk3.Bitstream
import Clearra.Proof.Ctk3.Field

/-!
# Every encoding of a field reads back

One lemma for each mode: what the encoder writes after the mode number, the decoder reads as the same
field. The encoder's choice among them does not matter then. The reader may be of any build with 32
bits or more: nothing the encoder writes is large.
-/

namespace Clearra.Proof.Ctk3

open Clearra.Ctk3 Lib List

/-! ## Guards and arithmetic -/

variable {α : Type} {f : Write}

theorem encodes_failIf {p : Prop} [Decidable p] {reason : String} {q : Unit → Read α} {a : α}
    (h : ¬p) (hq : Encodes f (q ()) a) : Encodes f (failIf p reason >>= q) a := by
  rw [failIf_of_not h, pure_bind]
  exact hq

theorem encodes_orFail {α β : Type} {reason : String} {o : Option β} {q : β → Read α} {a : α}
    {b : β} (h : o = some b) (hq : Encodes f (q b) a) : Encodes f (orFail reason o >>= q) a := by
  rw [h, orFail, pure_bind]
  exact hq

section

variable {b : Build} (hb : 32 ≤ b.pointerBits)
include hb

theorem lt_two_pow_bits {n : Nat} (h : n < 2 ^ 32) : n < 2 ^ b.pointerBits :=
  h.trans_le (Nat.pow_le_pow_right (by decide) hb)

theorem usize_of_lt {n : Nat} (h : n < 2 ^ 32) : usize b n = pure n := if_pos (lt_two_pow_bits hb h)

theorem usizeChecked_of_lt {n : Nat} (h : n < 2 ^ 32) : usizeChecked b n = pure n :=
  if_pos (lt_two_pow_bits hb h)

theorem encodes_varUintPlus {n k : Nat} (hk : k ≤ n) (hn : n < 2 ^ 32) :
    Encodes (writeVarUint (n - k)) (readVarUintPlus b k) n := by
  refine (encodes_writeVarUint _).andThen ?_
  rw [Nat.sub_add_cancel hk, usize_of_lt hb hn]
  exact .pure n

end

theorem usizeSub_of_le (b : Build) {m n : Nat} (h : n ≤ m) : usizeSub b m n = pure (m - n) := if_pos h

/-! ## Palettes -/

variable {palette : List Nat}

/-- Palettes have at most nine entries, so that an index fits. -/
theorem encodes_paletteIndex (hpalette : palette.length ≤ 9) {code : Nat} (hcode : code ∈ palette)
    (context : String) :
    Encodes (writePaletteIndex palette code) (readPaletteCode palette context) code := by
  have hindex := idxOf_lt_length_of_mem hcode
  refine (encodes_writeBits (by omega)).andThen ?_
  rw [getElem?_eq_getElem hindex, getElem_idxOf]
  exact .pure code

theorem length_uniqueCodes_le (codes : List Nat) : (uniqueCodes codes).length ≤ 9 :=
  (length_filter_le _ _).trans (by rw [length_range])

theorem length_fieldPalette_le (codes : List Nat) : (fieldPalette codes).length ≤ 9 := by
  rw [fieldPalette]
  split
  · decide
  · exact length_uniqueCodes_le codes

theorem encodes_colorMask (h : ValidCodes palette) :
    Encodes (writeBits (colorMask palette) 9) (readBits 9) (colorMask palette) :=
  encodes_writeBits ((colorMask_lt h).trans (by decide))

variable {codes : List Nat}

theorem encodes_paletteField (hcodes : ValidCodes codes) :
    Encodes (writeBits (colorMask (fieldPalette codes)) 9 >=>
      writeMany (writePaletteIndex (fieldPalette codes)) codes)
      (readPaletteField codes.length) codes := by
  refine (encodes_colorMask (validCodes_fieldPalette codes)).seq ?_
  rw [paletteFromMask_fieldPalette]
  refine encodes_failIf (fieldPalette_ne_nil codes) (encodes_writeMany fun code hcode => ?_)
  exact encodes_paletteIndex (length_fieldPalette_le codes) (mem_fieldPalette hcodes hcode) _

/-! ## Runs -/

theorem assertColorCode_of_lt {code : Nat} (h : code < 9) : assertColorCode code = pure () :=
  if_pos (by omega)

theorem encodes_colorCode {code : Nat} (h : code < 9) {q : Nat → Read α} {a : α}
    (hq : Encodes f (q code) a) : Encodes (writeBits code 4 >=> f)
      (do let code ← readBits 4; assertColorCode code; q code) a := by
  refine (encodes_writeBits (by omega)).seq ?_
  rw [assertColorCode_of_lt h, pure_bind]
  exact hq

variable {b : Build} {cellCount : Nat}

/-- The open prefix is what earlier runs gave. -/
theorem encodes_runs (hb : 32 ≤ b.pointerBits) (hcells : cellCount < 2 ^ 32)
    {runs : List (Nat × Nat)} (hruns : ∀ run ∈ runs, 0 < run.2)
    (hvalid : ValidCodes (expandRuns runs)) {front : List Nat}
    (hfront : front.length + (expandRuns runs).length ≤ cellCount) :
    Encodes (writeMany writeRun runs) (readRuns b cellCount runs.length front)
      (front ++ expandRuns runs) := by
  induction runs generalizing front with
  | nil =>
    rw [expandRuns, flatMap_nil, append_nil]
    exact .pure front
  | cons run runs ih =>
    obtain ⟨hrun, hruns⟩ := forall_mem_cons.mp hruns
    have hexpand : expandRuns (run :: runs) = List.replicate run.2 run.1 ++ expandRuns runs := by
      rw [← singleton_append, expandRuns_append, expandRuns_singleton]
    rw [hexpand] at hvalid hfront ⊢
    rw [length_append, length_replicate] at hfront
    have hcode : run.1 < 9 :=
      hvalid _ (mem_append_left _ (mem_replicate.mpr ⟨by omega, rfl⟩))
    have hnext : (front ++ List.replicate run.2 run.1).length + (expandRuns runs).length ≤
        cellCount := by
      rw [length_append, length_replicate]
      omega
    have hrest := ih hruns (fun code h => hvalid code (mem_append_right _ h)) hnext
    rw [append_assoc] at hrest
    rw [writeMany, writeRun, fish_assoc]
    refine encodes_colorCode hcode ((encodes_varUintPlus hb hrun (by omega)).seq ?_)
    rw [usizeSub_of_le b (by omega), pure_bind]
    exact encodes_failIf (by omega) hrest

theorem encodes_runField (hb : 32 ≤ b.pointerBits) (hcells : codes.length < 2 ^ 32)
    (hcodes : ValidCodes codes) :
    Encodes (writeVarUint (colorRuns codes).length >=> writeMany writeRun (colorRuns codes))
      (readRunField b codes.length) codes := by
  have hpos := colorRuns_pos codes
  have hexpand := expandRuns_colorRuns codes
  have hcount : (colorRuns codes).length ≤ codes.length := by
    have hle := length_le_expandRuns hpos
    rwa [hexpand] at hle
  have hroom : ([] : List Nat).length + (expandRuns (colorRuns codes)).length ≤ codes.length := by
    rw [hexpand, length_nil, Nat.zero_add]
  have hruns := encodes_runs hb hcells hpos (hexpand.symm ▸ hcodes) hroom
  rw [nil_append, hexpand] at hruns
  refine (encodes_writeVarUint _).seq (encodes_failIf (by omega) (hruns.andThen ?_))
  rw [failIf_of_not (not_not.mpr rfl), pure_bind]
  exact .pure codes

/-! ## Changes -/

theorem changeIndex_eq (hb : 32 ≤ b.pointerBits) {prior : Option Nat} {index : Nat}
    (hindex : index < 2 ^ 32) (hprior : ∀ p, prior = some p → p < index) :
    changeIndex b prior (changeGap prior index) = index := by
  have hwide := lt_two_pow_bits hb hindex
  cases prior with
  | none => rfl
  | some p =>
    have hlt := hprior p rfl
    simp only [changeIndex, changeGap, Build.saturatingAdd, Build.maxUsize]
    omega

theorem stored_of_lt {xs : List α} {i : Nat} (h : i < xs.length) (a : α) :
    stored xs i a = pure (xs.set i a) := if_pos h

theorem encodes_changes (hb : 32 ≤ b.pointerBits) (hcells : cellCount < 2 ^ 32)
    {changes : List (Nat × Nat)} (hsorted : changes.Pairwise fun left right => left.1 < right.1)
    (hlt : ∀ change ∈ changes, change.1 < cellCount) (hvalid : ∀ change ∈ changes, change.2 < 9)
    {prior : Option Nat} (hprior : ∀ p, prior = some p → ∀ change ∈ changes, p < change.1)
    (hcodes : codes.length = cellCount) :
    Encodes (writeChanges prior changes) (readChanges b cellCount changes.length prior codes)
      (storeAll changes codes) := by
  induction changes generalizing prior codes with
  | nil => exact .pure codes
  | cons change changes ih =>
    obtain ⟨hfirst, hsorted⟩ := pairwise_cons.mp hsorted
    obtain ⟨hchange, hlt⟩ := forall_mem_cons.mp hlt
    obtain ⟨hcode, hvalid⟩ := forall_mem_cons.mp hvalid
    have hafter : ∀ p, prior = some p → p < change.1 := fun p hp =>
      hprior p hp change mem_cons_self
    refine (encodes_writeVarUint _).seq ?_
    rw [changeIndex_eq hb (hchange.trans hcells) hafter]
    refine encodes_colorCode hcode (encodes_failIf ?_ ?_)
    · rintro (hge | hle)
      · omega
      · cases prior with
        | none => simp at hle
        | some p => exact absurd (hafter p rfl) (Nat.not_lt.mpr (of_decide_eq_true hle))
    · rw [stored_of_lt (hcodes ▸ hchange), pure_bind]
      refine ih hsorted hlt hvalid ?_ (length_set.trans hcodes)
      rintro p hp next hnext
      rw [← Option.some.inj hp]
      exact hfirst next hnext

theorem fittedPrevious_some (previous : List Nat) (cellCount : Nat) :
    fittedPrevious (some previous) cellCount = pure (fitCodes previous cellCount) := rfl

theorem encodes_fitted {previous : List Nat} {q : List Nat → Read α} {a : α}
    (h : Encodes f (q (fitCodes previous cellCount)) a) :
    Encodes f (fittedPrevious (some previous) cellCount >>= q) a := by
  rw [fittedPrevious_some, pure_bind]
  exact h

theorem changedCells_valid (hcodes : ValidCodes codes) (previous : List Nat) :
    ∀ change ∈ changedCells codes previous, change.2 < 9 := fun _ h =>
  hcodes _ (mem_of_getElem? ((mem_changedCells codes previous).mp h).1)

theorem encodes_deltaField (hb : 32 ≤ b.pointerBits) (hcells : codes.length < 2 ^ 32)
    (hcodes : ValidCodes codes) (previous : List Nat) :
    Encodes (writeVarUint (changedCells codes previous).length >=>
      writeChanges none (changedCells codes previous))
      (readDeltaField b codes.length (some previous)) codes := by
  have hfirst : ∀ p, (none : Option Nat) = some p →
      ∀ change ∈ changedCells codes previous, p < change.1 := by simp
  have hchanges := encodes_changes hb hcells (pairwise_changedCells codes previous)
    (fun _ h => changedCells_lt codes previous h) (changedCells_valid hcodes previous) hfirst
    (length_fitCodes previous codes.length)
  rw [storeAll_changedCells] at hchanges
  have hcount := length_changedCells_le codes previous
  exact encodes_fitted ((encodes_writeVarUint _).seq (encodes_failIf (by omega) hchanges))

/-! ## Colours for given cells -/

theorem encodes_colors (hpalette : palette.length ≤ 9) {indices values codes : List Nat}
    (hlength : indices.length = values.length) (hvalues : ∀ value ∈ values, value ∈ palette)
    (hindices : ∀ i ∈ indices, i < codes.length) :
    Encodes (writeMany (writePaletteIndex palette) values) (readColors palette indices codes)
      (storeAll (indices.zip values) codes) := by
  induction indices generalizing values codes with
  | nil =>
    obtain rfl := length_eq_zero_iff.mp hlength.symm
    exact .pure codes
  | cons index indices ih =>
    obtain ⟨value, values, rfl⟩ := exists_cons_of_length_eq_add_one hlength.symm
    obtain ⟨hindex, hindices⟩ := forall_mem_cons.mp hindices
    obtain ⟨hvalue, hvalues⟩ := forall_mem_cons.mp hvalues
    refine (encodes_paletteIndex hpalette hvalue _).seq ?_
    rw [stored_of_lt hindex, pure_bind]
    refine ih (Nat.succ.inj hlength) hvalues ?_
    rwa [length_set]

theorem encodes_changedColors (hcodes : ValidCodes codes) (previous : List Nat) :
    Encodes (writeMany (writePaletteIndex (uniqueCodes ((changedCells codes previous).map Prod.snd)))
      ((changedCells codes previous).map Prod.snd))
      (readColors (uniqueCodes ((changedCells codes previous).map Prod.snd))
        ((changedCells codes previous).map Prod.fst) (fitCodes previous codes.length)) codes := by
  have hlength : ((changedCells codes previous).map Prod.fst).length =
      ((changedCells codes previous).map Prod.snd).length := by
    rw [length_map, length_map]
  have hvalues : ∀ value ∈ (changedCells codes previous).map Prod.snd,
      value ∈ uniqueCodes ((changedCells codes previous).map Prod.snd) := fun value hvalue =>
    mem_uniqueCodes_of_valid
      (fun code h => hcodes code (changedCells_values_mem codes previous h)) hvalue
  have hindices : ∀ i ∈ (changedCells codes previous).map Prod.fst,
      i < (fitCodes previous codes.length).length := by
    intro i hi
    obtain ⟨change, hchange, rfl⟩ := mem_map.mp hi
    rw [length_fitCodes]
    exact changedCells_lt codes previous hchange
  have hcolors := encodes_colors (length_uniqueCodes_le _) hlength hvalues hindices
  rwa [changedCells_zip, storeAll_changedCells] at hcolors

theorem uniqueCodes_ne_nil {codes values : List Nat} (hcodes : ValidCodes codes)
    (hvalues : ∀ value ∈ values, value ∈ codes) (hne : values ≠ []) : uniqueCodes values ≠ [] := by
  obtain ⟨value, hvalue⟩ := exists_mem_of_ne_nil _ hne
  exact ne_nil_of_mem (mem_uniqueCodes.mpr ⟨hcodes _ (hvalues _ hvalue), hvalue⟩)

theorem readMasked_eq {changed : List Bool} {indices : List Nat}
    (h : ∀ i ∈ indices, i < changed.length) (codes : List Nat) :
    readMasked palette changed indices codes =
      readColors palette (indices.filter fun i => changed.getD i false) codes := by
  induction indices generalizing codes with
  | nil => rfl
  | cons index indices ih =>
    obtain ⟨hindex, hindices⟩ := forall_mem_cons.mp h
    have hindexed : indexed changed index = pure changed[index] := by
      rw [indexed, getElem?_eq_getElem hindex]
    rw [readMasked, hindexed, pure_bind, ih hindices]
    have hget : changed.getD index false = changed[index] := getD_eq_getElem _ _ hindex
    cases hset : changed[index] with
    | false =>
      rw [if_neg Bool.false_ne_true, filter_cons_of_neg (by rw [hget, hset]; simp)]
    | true =>
      rw [if_pos rfl, filter_cons_of_pos (by rw [hget, hset]), readColors]
      simp only [ih hindices]

/-! ## Masks -/

theorem ne_nil_of_reads {p : Read α} {bs : List Bool} {a : α} {e : Stop} (hp : p ⟨[], 0⟩ = .error e)
    (h : Reads p bs a) : bs ≠ [] := by
  rintro rfl
  obtain ⟨r, hr, -⟩ := h ⟨[], 0⟩ [] rfl
  rw [hp] at hr
  simp at hr

theorem ne_nil_of_reads_varUintPlus {k n : Nat} {bs : List Bool}
    (h : Reads (readVarUintPlus b k) bs n) : bs ≠ [] := ne_nil_of_reads rfl h

theorem readMaskRuns_full {value : Bool} {occupied : List Bool} (h : ¬occupied.length < cellCount)
    (rounds : Nat) : readMaskRuns b cellCount rounds value occupied = pure occupied := by
  cases rounds with
  | zero => rw [readMaskRuns, if_neg h]
  | succ rounds => rw [readMaskRuns, if_neg h]

/-- One round of the reader, whatever follows it. -/
theorem reads_maskRound {cellCount rounds runLength : Nat} {value : Bool}
    {front result bs cs : List Bool} (hrun : 0 < runLength)
    (hfront : front.length + runLength ≤ cellCount) (hbs : Reads (readVarUintPlus b 1) bs runLength)
    (hcs : Reads (readMaskRuns b cellCount rounds (!value) (front ++ List.replicate runLength value))
      cs result) : Reads (readMaskRuns b cellCount (rounds + 1) value front) (bs ++ cs) result := by
  rw [readMaskRuns, if_pos (by omega)]
  refine hbs.bind ?_
  rw [usizeSub_of_le b (by omega), pure_bind, failIf_of_not (by omega), pure_bind]
  exact hcs

/-- The open run has `runLength` cells so far; together with the rest they fill the mask. -/
theorem encodes_maskRuns (hb : 32 ≤ b.pointerBits) (hcells : cellCount < 2 ^ 32) (value : Bool)
    {runLength : Nat} (hrun : 0 < runLength) {front rest : List Bool}
    (hfront : front.length + runLength + rest.length = cellCount) :
    EncodesWithin remaining bits (writeMaskRuns value runLength rest)
      (fun rounds => readMaskRuns b cellCount rounds value front)
      (front ++ List.replicate runLength value ++ rest) := by
  induction rest generalizing value runLength front with
  | nil =>
    rw [length_nil, Nat.add_zero] at hfront
    rw [writeMaskRuns, append_nil, ← fish_pure (writeVarUint (runLength - 1))]
    refine .step (encodes_varUintPlus hb hrun (by omega))
      (fun _ => ne_nil_of_reads_varUintPlus) (.done fun rounds => ?_)
      fun rounds bs cs hbs hcs => reads_maskRound hrun hfront.le hbs hcs
    rw [readMaskRuns_full (by rw [length_append, length_replicate]; omega)]
    exact .pure _
  | cons next rest ih =>
    rw [length_cons] at hfront
    rw [writeMaskRuns]
    split
    · -- The cell belongs to the open run.
      rename_i heq
      subst heq
      have hfront' : front.length + (runLength + 1) + rest.length = cellCount := by omega
      have hmore := ih next (Nat.succ_pos runLength) hfront'
      rwa [replicate_succ', ← append_assoc, append_assoc, singleton_append] at hmore
    · -- It begins the next one.
      rename_i hne
      obtain rfl : next = !value := by
        cases next <;> cases value <;> simp_all
      have hfront' : (front ++ List.replicate runLength value).length + 1 + rest.length =
          cellCount := by
        rw [length_append, length_replicate]
        omega
      have hnext := ih (!value) Nat.one_pos hfront'
      rw [append_assoc, replicate_one, singleton_append] at hnext
      exact .step (encodes_varUintPlus hb hrun (by omega))
        (fun _ => ne_nil_of_reads_varUintPlus) hnext
        fun rounds bs cs hbs hcs => reads_maskRound hrun (by omega) hbs hcs

theorem bitsLeft_eq (r : BitReader) : r.bitsLeft = (remaining r).length := (length_remaining r).symm

theorem encodes_maskRunsField (hb : 32 ≤ b.pointerBits) {occupied : List Bool}
    (hcells : occupied.length < 2 ^ 32) :
    Encodes (writeBit true >=> maskRuns occupied) (readOccupancyMask b occupied.length) occupied := by
  refine (encodes_writeBit true).seq ?_
  rw [Bool.not_true, if_neg Bool.false_ne_true]
  cases occupied with
  | nil => exact .pure []
  | cons first rest =>
    rw [if_pos (by simp), maskRuns]
    have hroom : ([] : List Bool).length + 1 + rest.length = (first :: rest).length := by
      rw [length_cons, length_nil]
      omega
    have hruns := encodes_maskRuns hb hcells first Nat.one_pos hroom
    rw [nil_append, replicate_one, singleton_append] at hruns
    exact (encodes_writeBit first).seq (hruns.run bitsLeft_eq)

theorem encodes_occupancyMask (hb : 32 ≤ b.pointerBits) (occupied : List Bool)
    (hcells : occupied.length < 2 ^ 32) :
    Encodes (writeOccupancyMask occupied) (readOccupancyMask b occupied.length) occupied := by
  refine .given fun raw hraw => .given fun runs hruns => encodes_append ?_
  split
  · refine .of_encodes ((encodes_writeBit false).seq ?_) hraw
    rw [Bool.not_false, if_pos rfl]
    exact encodes_writeMany fun bit _ => encodes_writeBit bit
  · exact .of_encodes (encodes_maskRunsField hb hcells) hruns

/-! ## Differences -/

theorem values_eq_nil_of_palette {codes values : List Nat} (hcodes : ValidCodes codes)
    (hvalues : ∀ value ∈ values, value ∈ codes) (h : uniqueCodes values = []) : values = [] :=
  by_contra fun hne => uniqueCodes_ne_nil hcodes hvalues hne h

/-- The runs lie one after another, each inside the field. -/
theorem encodes_runBounds (hb : 32 ≤ b.pointerBits) (hcells : cellCount < 2 ^ 32)
    {runs : List (Nat × List Nat)} (hpos : ∀ run ∈ runs, 0 < run.2.length)
    (hsorted : (runs.flatMap expandDeltaRun).Pairwise fun left right => left.1 < right.1)
    {previousEnd changeCount : Nat} (hchanges : changeCount ≤ previousEnd)
    (hend : previousEnd ≤ cellCount)
    (hinside : ∀ cell ∈ runs.flatMap expandDeltaRun, previousEnd ≤ cell.1 ∧ cell.1 < cellCount)
    (found : List (Nat × Nat)) :
    Encodes (writeRunBounds previousEnd runs)
      (readRunBounds b cellCount runs.length previousEnd changeCount found)
      (found ++ runs.map (fun run => (run.1, run.2.length)),
        changeCount + (runs.flatMap Prod.snd).length) := by
  induction runs generalizing previousEnd changeCount found with
  | nil =>
    rw [map_nil, append_nil]
    exact .pure _
  | cons run runs ih =>
    obtain ⟨start, values⟩ := run
    obtain ⟨hrun, hpos⟩ := forall_mem_cons.mp hpos
    rw [flatMap_cons] at hsorted hinside
    obtain ⟨-, hsorted, hbefore⟩ := pairwise_append.mp hsorted
    rw [forall_mem_append] at hinside
    simp only at hrun
    have hfirst := hinside.1 _ (mem_expandDeltaRun start hrun)
    have hlast := mem_expandDeltaRun start (Nat.sub_lt hrun Nat.one_pos)
    have hlast' := hinside.1 _ hlast
    simp only at hfirst hlast'
    have hnext : ∀ cell ∈ runs.flatMap expandDeltaRun,
        start + values.length ≤ cell.1 ∧ cell.1 < cellCount := by
      intro cell hcell
      have hlt := hbefore _ hlast cell hcell
      simp only at hlt
      exact ⟨by omega, (hinside.2 cell hcell).2⟩
    have hchanges' : changeCount + values.length ≤ start + values.length := by omega
    have hrest := ih hpos hsorted hchanges' (by omega) hnext (found ++ [(start, values.length)])
    rw [append_assoc, singleton_append, Nat.add_assoc] at hrest
    rw [flatMap_cons, length_append]
    refine (encodes_writeVarUint _).seq ?_
    rw [Nat.add_sub_cancel' (by omega), usizeChecked_of_lt hb (by omega), pure_bind]
    refine (encodes_varUintPlus hb hrun (by omega)).seq (encodes_failIf (by omega) ?_)
    rw [usizeSub_of_le b (by omega), pure_bind]
    refine encodes_failIf (by omega) ?_
    rw [usize_of_lt hb (by omega), pure_bind, usize_of_lt hb (by omega), pure_bind]
    exact hrest

theorem encodes_combination {total : Nat} (htotal : total < 2 ^ 32) {positions : List Nat}
    (hsorted : positions.Pairwise (· < ·)) (hlt : ∀ p ∈ positions, p < total) (reason : String) :
    Encodes (writeCombination total positions) (readCombination total positions.length reason)
      positions := by
  refine (encodes_writeBigBits _ _).andThen ?_
  have hrank := toNat_combinationRank_lt htotal hsorted hlt
  rw [failIf_of_not, pure_bind, combinationUnrank_rank htotal hsorted hlt rfl]
  · exact .pure positions
  · rw [not_not, cmp_eq, Nat.compare_eq_lt]
    exact hrank

theorem encodes_combinationDeltaField (hcells : codes.length < 2 ^ 32) (hcodes : ValidCodes codes)
    (previous : List Nat) :
    Encodes (writeVarUint ((changedCells codes previous).map Prod.fst).length >=>
      writeCombination codes.length ((changedCells codes previous).map Prod.fst) >=>
      writeBits (colorMask (uniqueCodes
        (((changedCells codes previous).map Prod.fst).map (codes.getD · 0)))) 9 >=>
      writeMany (writePaletteIndex (uniqueCodes
        (((changedCells codes previous).map Prod.fst).map (codes.getD · 0))))
        (((changedCells codes previous).map Prod.fst).map (codes.getD · 0)))
      (readCombinationDeltaField codes.length (some previous)) codes := by
  have hvalues : ((changedCells codes previous).map Prod.fst).map (codes.getD · 0) =
      (changedCells codes previous).map Prod.snd := by
    rw [map_map]
    refine map_congr_left fun change hchange => ?_
    simp only [Function.comp_apply]
    rw [getD_eq_getElem?_getD, ((mem_changedCells codes previous).mp hchange).1]
    rfl
  have hlt : ∀ p ∈ (changedCells codes previous).map Prod.fst, p < codes.length := by
    intro p hp
    obtain ⟨change, hchange, rfl⟩ := mem_map.mp hp
    exact changedCells_lt codes previous hchange
  have hsorted := pairwise_map.mpr (pairwise_changedCells codes previous)
  have hcount := length_changedCells_le codes previous
  rw [hvalues]
  refine encodes_fitted ((encodes_writeVarUint _).seq (encodes_failIf ?_
    ((encodes_combination hcells hsorted hlt _).seq
    ((encodes_colorMask (validCodes_uniqueCodes _)).seq (encodes_failIf ?_ ?_)))))
  · rw [length_map]
    omega
  · rw [paletteFromMask_uniqueCodes]
    rintro ⟨hpos, hnil⟩
    have hnone := values_eq_nil_of_palette hcodes
      (fun _ => changedCells_values_mem codes previous) hnil
    rw [map_eq_nil_iff.mp hnone] at hpos
    simp at hpos
  · rw [paletteFromMask_uniqueCodes]
    exact encodes_changedColors hcodes previous

theorem encodes_changeMask (hb : 32 ≤ b.pointerBits) (hcells : codes.length < 2 ^ 32)
    (previous : List Nat) :
    Encodes (writeOccupancyMask (changeMask codes previous)) (readOccupancyMask b codes.length)
      (changeMask codes previous) := by
  have hmask := encodes_occupancyMask hb (changeMask codes previous) (by rwa [length_changeMask])
  rwa [length_changeMask] at hmask

section

variable {b : Build} (hb : 32 ≤ b.pointerBits) {codes : List Nat} (hcells : codes.length < 2 ^ 32)
  (hcodes : ValidCodes codes) (previous : List Nat)
include hb hcells hcodes

theorem encodes_maskDeltaField :
    Encodes (writeOccupancyMask (changeMask codes previous) >=>
      writeBits (colorMask (uniqueCodes (maskedCodes codes (changeMask codes previous)))) 9 >=>
      writeMany (writePaletteIndex (uniqueCodes (maskedCodes codes (changeMask codes previous))))
        (maskedCodes codes (changeMask codes previous)))
      (readMaskDeltaField b codes.length (some previous)) codes := by
  have hmask := encodes_changeMask hb hcells previous
  rw [maskedCodes_changeMask]
  refine encodes_fitted (hmask.seq ((encodes_colorMask (validCodes_uniqueCodes _)).seq ?_))
  rw [paletteFromMask_uniqueCodes]
  refine encodes_failIf ?_ ?_
  · rintro ⟨hany, hnil⟩
    obtain ⟨set, hset, htrue⟩ := any_eq_true.mp hany
    obtain ⟨i, hi⟩ := mem_iff_getElem?.mp hset
    have hchanged : i ∈ (changedCells codes previous).map Prod.fst := by
      rw [← filter_changeMask, mem_filter, mem_range, ← length_changeMask codes previous]
      refine ⟨(List.getElem?_eq_some_iff.mp hi).1, ?_⟩
      rw [List.getD_eq_getElem?_getD, hi]
      exact htrue
    have hvalues := values_eq_nil_of_palette hcodes
      (fun _ => changedCells_values_mem codes previous) hnil
    rw [map_eq_nil_iff.mp hvalues] at hchanged
    simp at hchanged
  · rw [readMasked_eq fun i hi => by rwa [length_changeMask, ← mem_range], filter_changeMask]
    exact encodes_changedColors hcodes previous

theorem encodes_runDeltaField :
    Encodes (writeBits (colorMask (uniqueCodes ((deltaRuns codes previous).flatMap Prod.snd))) 9 >=>
      writeVarUint (deltaRuns codes previous).length >=>
      writeRunBounds 0 (deltaRuns codes previous) >=>
      writeMany (writePaletteIndex (uniqueCodes ((deltaRuns codes previous).flatMap Prod.snd)))
        ((deltaRuns codes previous).flatMap Prod.snd))
      (readRunDeltaField b codes.length (some previous)) codes := by
  have hzip := zip_deltaRuns (deltaRuns codes previous)
  rw [flatMap_expandDeltaRun] at hzip
  have hlengths : ((deltaRuns codes previous).flatMap fun run =>
      List.range' run.1 run.2.length).length =
        ((deltaRuns codes previous).flatMap Prod.snd).length := by
    simp only [length_flatMap, length_range']
  have hvalues : (deltaRuns codes previous).flatMap Prod.snd =
      (changedCells codes previous).map Prod.snd := by
    rw [← hzip, map_snd_zip hlengths.ge]
  have hindices : ((deltaRuns codes previous).flatMap fun run =>
      List.range' run.1 run.2.length) = (changedCells codes previous).map Prod.fst := by
    rw [← hzip, map_fst_zip hlengths.le]
  have hbounds := encodes_runBounds hb hcells (deltaRuns_pos codes previous)
    (flatMap_expandDeltaRun codes previous ▸ pairwise_changedCells codes previous) (Nat.le_refl 0)
    (Nat.zero_le _) (fun cell hcell => ⟨Nat.zero_le _, changedCells_lt codes previous
      (flatMap_expandDeltaRun codes previous ▸ hcell)⟩) []
  rw [nil_append, Nat.zero_add, hvalues] at hbounds
  have hcount := length_deltaRuns_le codes previous
  rw [hvalues]
  refine encodes_fitted ((encodes_colorMask (validCodes_uniqueCodes _)).seq
    ((encodes_writeVarUint _).seq (encodes_failIf (by omega) (hbounds.seq (encodes_failIf ?_ ?_)))))
  · rw [paletteFromMask_uniqueCodes]
    rintro ⟨hpos, hnil⟩
    rw [values_eq_nil_of_palette hcodes (fun _ => changedCells_values_mem codes previous) hnil] at hpos
    simp at hpos
  · rw [paletteFromMask_uniqueCodes, flatMap_map]
    simp only
    rw [hindices]
    exact encodes_changedColors hcodes previous

theorem encodes_colorDeltaField {color : Nat}
    (hcolor : uniqueCodes (maskedCodes codes (changeMask codes previous)) = [color]) :
    Encodes (writeBits color 4 >=> writeOccupancyMask (changeMask codes previous))
      (readColorDeltaField b codes.length (some previous)) codes := by
  rw [maskedCodes_changeMask] at hcolor
  have hvalid : color < 9 := validCodes_uniqueCodes _ color (hcolor ▸ mem_singleton_self color)
  refine encodes_fitted (encodes_colorCode hvalid ((encodes_changeMask hb hcells previous).andThen ?_))
  have hfield : ((fitCodes previous codes.length).zip (changeMask codes previous)).map
      (fun cell => if cell.2 then color else cell.1) = codes := by
    refine ext_getElem (by simp) fun i hi hi' => ?_
    simp only [fitCodes, changeMask, getElem_map, getElem_zip, getElem_range,
      getElem_zipIdx, Nat.zero_add, decide_eq_true_eq]
    split
    · rename_i hne
      have hchange : (i, codes[i]) ∈ changedCells codes previous :=
        (mem_changedCells codes previous).mpr ⟨getElem?_eq_getElem hi', hne⟩
      have hmem := mem_uniqueCodes.mpr ⟨hcodes _ (getElem_mem hi'),
        mem_map_of_mem (f := Prod.snd) hchange⟩
      rw [hcolor, mem_singleton] at hmem
      exact hmem.symm
    · rename_i heq
      exact (not_not.mp heq).symm
  change Reads (pure (((fitCodes previous codes.length).zip (changeMask codes previous)).map
    fun cell => if cell.2 then color else cell.1)) [] codes
  rw [hfield]
  exact .pure codes

end

end Clearra.Proof.Ctk3
