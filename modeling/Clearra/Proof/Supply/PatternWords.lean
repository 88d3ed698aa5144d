import Clearra.Lib.Draws
import Clearra.Proof.Supply.ObservedUniverse
import Clearra.Supply.CompactUnion

/-!
# The queues of a compact universe

A compact universe finds its queues by rank. Which queues these are is said by a plan of draws: the
atoms of an expression, or whole bags and what is left of the last one. Compiling a universe keeps the
plan, so the atoms of a prepared language spell exactly its queues.
-/

namespace Clearra.Proof.Supply

open Clearra.Supply Lib MaterializedPatternUniverse List Nat

/-! ## Masks -/

/-- The pieces of a mask. -/
def members (mask : UsedMask) : List PieceKind :=
  PieceKind.standardTetrominoes.filter fun piece => mask.getLsbD piece.index

theorem mem_members {mask : UsedMask} {piece : PieceKind} :
    piece ∈ members mask ↔ mask.getLsbD piece.index = true := by
  have hall : piece ∈ PieceKind.standardTetrominoes := by cases piece <;> decide
  simp [members, hall]

theorem members_remove : ∀ (mask : UsedMask) (piece : PieceKind),
    members (mask &&& ~~~pieceBit piece) = (members mask).erase piece := by
  intro mask piece
  revert mask
  cases piece <;> decide +kernel

theorem fallingFactorial_eq (value count : Nat) :
    fallingFactorial value count = value.descFactorial count := by
  induction count with
  | zero => rfl
  | succ count ih =>
    rw [fallingFactorial] at ih
    rw [fallingFactorial, range_succ, foldl_append, ih, descFactorial_succ, Nat.mul_comm]
    rfl

/-! ## Expressions -/

/-- The plan an expression's atoms stand for. -/
def factors (atoms : List FactorizedPatternAtom) : List (List PieceKind × Nat) :=
  atoms.map fun atom => (atom.choices, atom.drawCount)

/-- An atom whose number of variants is right. -/
structure Sized (atom : FactorizedPatternAtom) : Prop where
  nodup : atom.choices.Nodup
  draw_le : atom.drawCount ≤ atom.choices.length
  variants : atom.variantCount = atom.choices.length.descFactorial atom.drawCount

theorem appendVariant_eq {available : List PieceKind} {n rank : Nat} (hnodup : available.Nodup)
    (hn : n ≤ available.length) (hrank : rank < available.length.descFactorial n) :
    appendVariant available n rank = (arrangements available n)[rank]? := by
  induction n generalizing available rank with
  | zero =>
    obtain rfl : rank = 0 := lt_one_iff.mp hrank
    rfl
  | succ n ih =>
    have hpos : 0 < (available.length - 1).descFactorial n :=
      descFactorial_pos.mpr (by omega)
    have hbranch : ∀ piece ∈ available,
        ((arrangements (available.erase piece) n).map (piece :: ·)).length =
          (available.length - 1).descFactorial n := by
      intro piece hpiece
      rw [length_map, length_arrangements, length_erase_of_mem hpiece]
    rw [appendVariant, arrangements, getElem?_flatMap_of_forall hpos hbranch, fallingFactorial_eq]
    cases hget : available[rank / (available.length - 1).descFactorial n]? with
    | none => rfl
    | some piece =>
      obtain ⟨hlt, rfl⟩ := List.getElem?_eq_some_iff.mp hget
      have hlength : (available.erase available[rank / (available.length - 1).descFactorial n]).length =
          available.length - 1 := length_erase_of_mem (getElem_mem hlt)
      rw [Option.bind_eq_bind, Option.bind_some, Option.bind_some, ← hnodup.erase_getElem _ hlt,
        ih (hnodup.erase _) (by omega) (by rw [hlength]; exact mod_lt _ hpos), getElem?_map]
      exact (Option.map_eq_bind).symm

theorem length_words_factors_pos {atoms : List FactorizedPatternAtom} (h : ∀ atom ∈ atoms, Sized atom) :
    0 < (words (factors atoms)).length := by
  rw [length_words]
  refine prod_pos fun size hsize => ?_
  obtain ⟨draw, hdraw, rfl⟩ := mem_map.mp hsize
  obtain ⟨atom, hatom, rfl⟩ := mem_map.mp hdraw
  exact descFactorial_pos.mpr (h atom hatom).draw_le

theorem writeAtoms_eq {visible : Nat} {atoms : List FactorizedPatternAtom}
    (h : ∀ atom ∈ atoms, Sized atom) {index : Nat}
    (hindex : index < (words (factors atoms)).length) {output : List PieceKind}
    (houtput : output.length ≤ visible) :
    writeAtoms visible atoms index (words (factors atoms)).length output =
      ((words (factors atoms))[index]?).map fun w => (output ++ w).take visible := by
  induction atoms generalizing index output with
  | nil =>
    obtain rfl : index = 0 := lt_one_iff.mp hindex
    change some output = some ((output ++ []).take visible)
    rw [append_nil, take_of_length_le houtput]
  | cons atom atoms ih =>
    obtain ⟨hhead, htail⟩ := forall_mem_cons.mp h
    have hpos := length_words_factors_pos htail
    have hvariants : 0 < atom.variantCount := by
      rw [hhead.variants]
      exact descFactorial_pos.mpr hhead.draw_le
    have hlength : (words (factors (atom :: atoms))).length =
        atom.variantCount * (words (factors atoms)).length := by
      rw [length_words, length_words, hhead.variants]
      rfl
    have hvariant : index / (words (factors atoms)).length < atom.variantCount := by
      rw [hlength] at hindex
      exact (Nat.div_lt_iff_lt_mul hpos).mpr hindex
    have hrest : index % (words (factors atoms)).length < (words (factors atoms)).length :=
      mod_lt _ hpos
    have hwords : (words (factors (atom :: atoms)))[index]? =
        ((arrangements atom.choices atom.drawCount)[index /
          (words (factors atoms)).length]?).bind fun v =>
            ((words (factors atoms)).map (v ++ ·))[index % (words (factors atoms)).length]? :=
      getElem?_flatMap_of_forall hpos (fun v _ => length_map (v ++ ·)) index
    rw [hwords, writeAtoms, hlength, Nat.mul_div_cancel_left _ hvariants,
      appendVariant_eq hhead.nodup hhead.draw_le (hhead.variants ▸ hvariant)]
    simp only [ne_eq, hpos.ne', not_false_eq_true, guard, if_true]
    cases (arrangements atom.choices atom.drawCount)[index / (words (factors atoms)).length]? with
    | none => rfl
    | some v =>
      change (if (output ++ v).length ≥ visible then _ else _) = _
      rw [Option.bind_some, getElem?_map]
      split
      · rename_i hlong
        rw [getElem?_eq_getElem hrest]
        simp only [Option.map_some, ← append_assoc]
        rw [take_append_of_le_length hlong]
      · rename_i hshort
        rw [ih htail hrest (by omega), Option.map_map]
        simp only [Function.comp_def, append_assoc]

section

variable {space : FactorizedQueuePatternSpace} (h : ∀ atom ∈ space.atoms, Sized atom)
  (hcount : space.patternCount = (words (factors space.atoms)).length)
include h hcount

theorem sequence_eq_words (index : Nat) : space.sequence index =
    ((words (factors space.atoms))[index]?).map fun w => w.take space.visibleSequenceLen := by
  rw [FactorizedQueuePatternSpace.sequence, hcount]
  split
  · rename_i hindex
    exact writeAtoms_eq h hindex (Nat.zero_le _)
  · rename_i hindex
    rw [getElem?_eq_none (Nat.le_of_not_lt hindex)]
    rfl

/-- What an expression lists: the words of its plan, as far as they are visible. -/
theorem factorized_sequences (sequence : List PieceKind) :
    (∃ index, space.sequence index = some sequence) ↔
      ∃ w, Spells (factors space.atoms) w ∧ sequence = w.take space.visibleSequenceLen := by
  simp only [sequence_eq_words h hcount, Option.map_eq_some_iff, ← mem_words, mem_iff_getElem?]
  constructor
  · rintro ⟨index, w, hw, rfl⟩
    exact ⟨w, ⟨index, hw⟩, rfl⟩
  · rintro ⟨w, ⟨index, hw⟩, rfl⟩
    exact ⟨index, w, hw, rfl⟩

end

/-! ## Whole bags -/

/-- The plan compiled atoms stand for. -/
def plan (atoms : List DrawAtom) : List (List PieceKind × Nat) :=
  atoms.map fun atom => (members atom.choices, atom.draws)

theorem plan_bagAtoms_succ (n : Nat) :
    plan (bagAtoms (n + 1)) = (members fullStandardBag, min (n + 1) 7) :: plan (bagAtoms (n + 1 - 7)) := by
  by_cases h : n < 7
  · have hsmall : ∀ n < 7, bagAtoms (n + 1) = [⟨fullStandardBag, n + 1⟩] := by decide
    rw [Nat.min_eq_left (by omega), Nat.sub_eq_zero_of_le (by omega), hsmall n h]
    rfl
  · obtain ⟨k, rfl⟩ := Nat.exists_eq_add_of_le (Nat.le_of_not_lt h)
    rw [Nat.min_eq_right (by omega), show 7 + k + 1 = k + 8 by omega, bagAtoms]
    rfl

namespace Place

/-- A place in a bag whose pieces the queue has had itself. -/
structure Whole (s : Place) : Prop extends Sound s where
  offset_eq : s.offset = Executor.countOnes s.used

/-- The pieces the bag still has. -/
def available (s : Place) : UsedMask := fullStandardBag &&& ~~~s.used

variable {s : Place}

theorem whole_fresh : Whole ⟨0, 0⟩ := ⟨sound_initial (Nat.zero_le 7), by decide⟩

theorem Whole.turn (h : s.Whole) : s.turn.Whole ∧ s.turn.offset < 7 := by
  refine ⟨⟨h.toSound.turn.1, ?_⟩, h.toSound.turn.2⟩
  rw [Place.turn]
  split
  · decide
  · exact h.offset_eq

theorem Whole.draw (h : s.Whole) (hlt : s.offset < 7) {piece : PieceKind}
    (hfree : s.has piece = false) : (s.draw piece).Whole := by
  refine ⟨h.toSound.draw hlt hfree, ?_⟩
  rw [Place.draw, countOnes_or_pieceBit _ _ hfree, h.offset_eq]

theorem available_draw (s : Place) (piece : PieceKind) :
    (s.draw piece).available = s.available &&& ~~~pieceBit piece := by
  rw [available, available, Place.draw, BitVec.not_or, BitVec.and_assoc]

theorem available_and_eq_zero (s : Place) (piece : PieceKind) :
    s.available &&& pieceBit piece = 0 ↔ s.has piece = true := by
  have hall : ∀ used : UsedMask, fullStandardBag &&& ~~~used &&& pieceBit piece = 0 ↔
      used.getLsbD piece.index = true := by
    cases piece <;> decide +kernel
  exact hall s.used

theorem countOnes_available (h : s.Whole) : Executor.countOnes s.available = 7 - s.offset := by
  have hall : ∀ used : UsedMask, used.getLsbD 7 = false →
      Executor.countOnes (fullStandardBag &&& ~~~used) = 7 - Executor.countOnes used := by
    decide +kernel
  rw [h.offset_eq]
  exact hall s.used h.seven

theorem available_turn (h : s.Whole) :
    (if s.available = 0 then fullStandardBag else s.available) = s.turn.available := by
  have hall : ∀ used : UsedMask, used.getLsbD 7 = false →
      (fullStandardBag &&& ~~~used = 0 ↔ Executor.countOnes used = 7) := by
    decide +kernel
  have hzero : s.available = 0 ↔ s.offset = 7 := by
    rw [h.offset_eq]
    exact hall s.used h.seven
  rw [Place.turn]
  by_cases hseven : s.offset = 7
  · rw [if_pos (hzero.mpr hseven), if_pos hseven]
    rfl
  · rw [if_neg (mt hzero.mp hseven), if_neg hseven]

end Place

theorem min_mul_min {a : Nat} (ha : 0 < a) (b m : Nat) : min (a * min b m) m = min (a * b) m := by
  rcases Nat.le_total b m with hle | hle
  · rw [Nat.min_eq_left hle]
  · rw [Nat.min_eq_right hle, Nat.min_eq_right (Nat.le_mul_of_pos_left m ha),
      Nat.min_eq_right (hle.trans (Nat.le_mul_of_pos_left b ha))]

theorem descFactorial_fits : ∀ c ≤ 7, ∀ n ≤ c, Nat.descFactorial c n ≤ u128Max := by decide

theorem fullBagSuffixCount_eq (n : Nat) : fullBagSuffixCount n = min (number n 0 0) u128Max := by
  induction n using Nat.strong_induction_on with
  | _ n ih =>
    by_cases h : n < 8
    · have hsmall : ∀ n < 8, fullBagSuffixCount n = Nat.descFactorial 7 n ∧
          number n 0 0 = Nat.descFactorial 7 n := by decide
      rw [(hsmall n h).1, (hsmall n h).2,
        Nat.min_eq_left (descFactorial_fits 7 (Nat.le_refl 7) n (by omega))]
    · obtain ⟨k, rfl⟩ := Nat.exists_eq_add_of_le (Nat.le_of_not_lt h)
      have hnumber : number (k + 8) 0 0 = Nat.descFactorial 7 7 * number (k + 1) 0 0 := by
        rw [number_eq (Nat.le_refl 0) (Nat.zero_le 7), show min (k + 8) (7 - 0) = 7 by omega]
        rfl
      rw [Nat.add_comm 8 k, fullBagSuffixCount, ih (k + 1) (by omega), fallingFactorial_eq, hnumber,
        min_mul_min (by decide)]

variable {n : Nat} {s : Place}

theorem suffixCount_eq (h : s.Whole) :
    suffixCount n s.available = min (suffixes n s).length u128Max := by
  rw [length_suffixes h.toSound, ← h.offset_eq, number_eq (Nat.le_refl _) h.offset_le, suffixCount,
    Place.countOnes_available h, fallingFactorial_eq, fallingFactorial_eq]
  by_cases hn : n ≤ 7 - s.offset
  · rw [if_pos hn, Nat.min_eq_left hn, Nat.sub_self, number, Nat.mul_one,
      Nat.min_eq_left (descFactorial_fits _ (sub_le _ _) n hn)]
  · rw [if_neg hn, Nat.min_eq_right (Nat.le_of_not_le hn), fullBagSuffixCount_eq,
      min_mul_min (descFactorial_pos.mpr (Nat.le_refl _))]

/-- Saturated counts find every rank below the number they saturate at. -/
theorem selectPiece_eq (hs : s.Whole) (hlt : s.offset < 7) {pieces : List PieceKind} {rank : Nat}
    (hrank : rank < (branches n s pieces).length) (hsmall : rank < u128Max) :
    ∃ piece rest, selectPiece n s.available pieces rank = some (piece, rest) ∧
      s.has piece = false ∧ rest < (suffixes n (s.draw piece)).length ∧ rest < u128Max ∧
      (branches n s pieces)[rank]? = ((suffixes n (s.draw piece))[rest]?).map (piece :: ·) := by
  induction pieces generalizing rank with
  | nil => exact absurd hrank (Nat.not_lt_zero rank)
  | cons piece pieces ih =>
    rw [selectPiece]
    cases hhas : s.has piece with
    | true =>
      rw [branches_cons_used pieces hhas] at hrank ⊢
      rw [if_pos ((s.available_and_eq_zero piece).mpr hhas)]
      exact ih hrank hsmall
    | false =>
      rw [branches_cons_free pieces hhas] at hrank ⊢
      rw [length_append, length_map] at hrank
      rw [if_neg (mt (s.available_and_eq_zero piece).mp (by rw [hhas]; simp)), ← Place.available_draw,
        suffixCount_eq (hs.draw hlt hhas), getElem?_append, length_map]
      by_cases hhere : rank < (suffixes n (s.draw piece)).length
      · rw [if_pos (Nat.lt_min.mpr ⟨hhere, hsmall⟩), if_pos hhere]
        exact ⟨piece, rank, rfl, hhas, hhere, hsmall, getElem?_map⟩
      · rw [Nat.min_eq_left (by omega), if_neg hhere, if_neg hhere]
        exact ih (by omega) (by omega)

theorem writeBags_eq (hs : s.Whole) {rank : Nat} (hrank : rank < (suffixes n s).length)
    (hsmall : rank < u128Max) : writeBags n s.available rank = (suffixes n s)[rank]? := by
  induction n generalizing s rank with
  | zero =>
    obtain rfl : rank = 0 := lt_one_iff.mp hrank
    rfl
  | succ n ih =>
    obtain ⟨hturn, hlt⟩ := hs.turn
    obtain ⟨piece, rest, hselect, hfree, hrest, hsmall', hget⟩ := selectPiece_eq hturn hlt hrank hsmall
    rw [suffixes, hget, writeBags]
    dsimp only
    rw [Place.available_turn hs, hselect, ← ih (hturn.draw hlt hfree) hrest hsmall',
      Place.available_draw]
    dsimp only [Option.bind_eq_bind, Option.bind_some]
    cases writeBags n _ rest <;> rfl

/-- From a place, what is left of the bag is drawn, and then whole bags. -/
theorem suffixes_eq_words (hs : s.Whole) : suffixes n s = words
    ((members s.available, min n (7 - s.offset)) :: plan (bagAtoms (n - (7 - s.offset)))) := by
  induction n generalizing s with
  | zero =>
    rw [Nat.zero_min, words_zero, Nat.zero_sub]
    rfl
  | succ n ih =>
    -- at the end of a bag nothing is left of it, and the plan goes on as that of a fresh one
    have hturned : words ((members s.available, min (n + 1) (7 - s.offset)) ::
          plan (bagAtoms (n + 1 - (7 - s.offset)))) =
        words ((members s.turn.available, min (n + 1) (7 - s.turn.offset)) ::
          plan (bagAtoms (n + 1 - (7 - s.turn.offset)))) := by
      rw [Place.turn]
      split
      · rename_i hseven
        rw [hseven, Nat.sub_self, Nat.min_zero, words_zero, Nat.sub_zero, plan_bagAtoms_succ]
        rfl
      · rfl
    obtain ⟨hturn, hlt⟩ := hs.turn
    have hdraws : min (n + 1) (7 - s.turn.offset) = min n (7 - (s.turn.offset + 1)) + 1 := by omega
    have hrest : n + 1 - (7 - s.turn.offset) = n - (7 - (s.turn.offset + 1)) := by omega
    rw [hturned, hdraws, hrest, words_succ, suffixes, members, flatMap_filter]
    refine flatMap_congr fun piece _ => ?_
    have hmember : s.turn.available.getLsbD piece.index = !s.turn.has piece := by
      rw [Bool.eq_iff_iff, ← and_pieceBit_ne_zero, ne_eq, s.turn.available_and_eq_zero]
      simp
    rw [hmember]
    cases hfree : s.turn.has piece with
    | true => rfl
    | false =>
      rw [ih (hturn.draw hlt hfree), Place.available_draw, members_remove]
      rfl

theorem suffixes_fresh (n : Nat) : suffixes n ⟨0, 0⟩ = words (plan (bagAtoms n)) := by
  rw [suffixes_eq_words Place.whole_fresh]
  cases n with
  | zero => exact words_zero
  | succ n =>
    rw [plan_bagAtoms_succ]
    rfl

variable {cancelled : Nat → Bool}

/-- An atom that can be drawn out. -/
structure Drawable (atom : DrawAtom) : Prop where
  draws_pos : 0 < atom.draws
  draws_le : atom.draws ≤ (members atom.choices).length
  seven : atom.choices.getLsbD 7 = false

section Compiles

variable {atoms : List FactorizedPatternAtom} {compiled : List DrawAtom}

section

variable (h : List.Forall₂ Compiles atoms compiled)
include h

end

end Compiles

variable {atoms : List DrawAtom}

variable {source : UniformCompactPatternSource}

variable {patterns : MaterializedPatternUniverse}

/-- What a prepared language and its first frontier are. -/
structure Prepared (patterns : MaterializedPatternUniverse) (language : CompactPatternUnionLanguage)
    (frontier : CompactPatternUnionFrontier) : Prop where
  cursor_eq : language.initial.cursor = 0
  empty_eq : language.initial.holdEmpty = language.initial.holdPiece.isNone
  free : language.initial.holdPolicy = .forbidden → language.initial.holdPiece = none
  drawable : ∀ atom ∈ language.atoms, Drawable atom
  pieces_le : language.sequencePieces ≤ 65535
  frontier_eq : ∃ first rest, language.atoms = first :: rest ∧
    frontier = ⟨language.owner, [⟨⟨0, 0, first.choices, 0⟩, language.initial.holdPiece⟩], 0⟩
  sequences : ∀ sequence, (∃ index, patterns.trySequenceAt index = some sequence) ↔
    ∃ w, Spells (plan language.atoms) w ∧ sequence = w.take language.sequencePieces

end Clearra.Proof.Supply
