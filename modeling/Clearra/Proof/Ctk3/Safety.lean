import Clearra.Ctk3.Decoder
import Clearra.Lib.Guarded
import Clearra.Proof.Ctk3.BigNat
import Clearra.Proof.Ctk3.Field

/-!
# Reading a field is safe

In a build with overflow checks no index is ever out of bounds, and arithmetic can leave `usize` only
where that is narrower than 64 bits. A run that does not end in an overflow is also the run of a
build with as many bits or more: sums that fit the one fit the other, and where a saturating sum
differs both are past the end of the field. Every function gets one rule that says so and says what
its result is good for; the rule of a caller is put together from the rules of what it calls.
-/

namespace Clearra.Proof.Ctk3

open Clearra.Ctk3 Lib List

/-- A reader only moves on. -/
instance : Preorder BitReader where
  le r r' := r.bytes = r'.bytes ∧ r.bitOffset ≤ r'.bitOffset
  le_refl _ := ⟨rfl, Nat.le_refl _⟩
  le_trans _ _ _ h h' := ⟨h.1.trans h'.1, h.2.trans h'.2⟩

/-- A build the shipped ones can be compared with: it panics where they wrap. -/
structure Checked (b : Build) : Prop where
  checks : b.overflowChecks = true
  wide : 32 ≤ b.pointerBits

/-- The ends that do not depend on the build: errors, but not of arithmetic. -/
def Ordinary : Stop → Prop
  | .error e => e ≠ .integerOverflow
  | .outOfBounds => False
  | .overflow => False

/-- The panic on overflow, and the error that a checked sum was too large. -/
def Overflows : Stop → Prop
  | .error e => e = .integerOverflow
  | .outOfBounds => False
  | .overflow => True

abbrev Safe {α : Type} (p : Read α) (post : α → Prop) : Prop := Meets Ordinary p post

/-- `b` panics where `b'` might wrap, and has no more bits than it. -/
class Wider (b b' : Build) : Prop extends Checked b where
  le : b.pointerBits ≤ b'.pointerBits

/-- The ends after which `b'` may go on. -/
def Excused (b b' : Build) : Stop → Prop
  | .error e => e = .integerOverflow ∧ b.pointerBits < b'.pointerBits
  | .outOfBounds => False
  | .overflow => True

/-- Where `k` is added to the number `v` that was just read: to a length, a distance or a repeat count,
    or to the gap in front of a run, which begins at a sum. -/
inductive AddsAt : ∀ {α : Type}, (Build → Except Stop α) → Nat × Nat → Prop
  | plus {r r' : BitReader} {v k : Nat} (h : readVarUint r = .ok (v, r')) :
      AddsAt (usize · (v + k) r') (v, k)
  | start {r r' : BitReader} {v k : Nat} (h : readVarUint r = .ok (v, r')) :
      AddsAt (usizeChecked · (k + v) r') (v, k)

/-- How `b` is compared with `b'`. With 64 bits no sum is too large, not even for an error. -/
def comparison (b b' : Build) : Comparison Build Stop (Nat × Nat) where
  narrow := b
  wide := b'
  ordinary := Ordinary
  halts := Overflows
  not_halts e h h' := by
    cases e with
    | error e => exact h h'
    | outOfBounds => exact h
    | overflow => exact h
  mayHalt := b.pointerBits < 64
  excused := Excused b b'
  site := AddsAt
  large sum := 2 ^ b.pointerBits ≤ sum.1 + sum.2

/-- Safe with `b`, and with `b'` the same. -/
abbrev Steady {α : Type} (b b' : Build) (p : Build → Read α) (post : α → Prop) : Prop :=
  Tracks (comparison b b') p post

variable {b b' : Build}

/-! ## Errors, indices, arithmetic -/

section

variable {α : Type} {post : α → Prop}

theorem safe_refuse {e : Ctk3CodecError} (h : e ≠ .integerOverflow) : Safe (refuse e) post :=
  .stop h

theorem safe_fail (reason : String) : Safe (fail reason) post := safe_refuse (by simp)

theorem safe_failIf (p : Prop) [Decidable p] (reason : String) :
    Safe (failIf p reason) fun _ => ¬p := by
  rw [failIf]
  split
  · exact safe_fail reason
  · rename_i h
    exact .ret h

theorem safe_orFail (reason : String) (o : Option α) :
    Safe (orFail reason o) fun a => o = some a := by
  cases o with
  | none => exact safe_fail reason
  | some a => exact .ret rfl

theorem safe_indexed {xs : List α} {i : Nat} (h : i < xs.length) :
    Safe (indexed xs i) fun a => xs[i]? = some a := by
  rw [indexed, getElem?_eq_getElem h]
  exact .ret rfl

theorem safe_stored {xs : List α} {i n : Nat} (hxs : xs.length = n) (h : i < n) (a : α) :
    Safe (stored xs i a) fun ys => ys.length = n := by
  subst hxs
  rw [stored, if_pos h]
  exact .ret length_set

theorem safe_readIf {p : Build → Read α} (present : Bool) (h : Steady b b' p post) :
    Steady b b' (fun v => readIf present (p v)) fun o => ∀ a, o = some a → post a :=
  .ite (fun _ => h.bind fun a ha => .ret fun a' heq => Option.some.inj heq ▸ ha)
    fun _ => .ret (by simp)

end

/-- A number of 64 bits that is too large is so only for a narrow build. -/
theorem narrow_of_not_lt {n : Nat} (hn : n < 2 ^ 64) (h : ¬n < 2 ^ b.pointerBits) :
    b.pointerBits < 64 := by
  by_contra hbits
  exact h (hn.trans_le (Nat.pow_le_pow_right (by decide) (Nat.le_of_not_lt hbits)))

theorem Wider.refl (h : Checked b) : Wider b b := ⟨h, Nat.le_refl _⟩

theorem Wider.pow_le (h : Wider b b') : 2 ^ b.pointerBits ≤ 2 ^ b'.pointerBits :=
  Nat.pow_le_pow_right (by decide) h.le

theorem Wider.pow_32_le (h : Wider b b') : 2 ^ 32 ≤ 2 ^ b.pointerBits :=
  Nat.pow_le_pow_right (by decide) h.wide

theorem safe_usizeSub {m n : Nat} (h : n ≤ m) : Steady b b' (usizeSub · m n) (· = m - n) := by
  simp only [Steady, usizeSub, if_pos h]
  exact .ret rfl

variable [hb : Wider b b']

/-- A number that fits `b` fits `b'`. -/
theorem steady_of_fits {op : Build → Read Nat} {n : Nat}
    (hop : ∀ v, n < 2 ^ v.pointerBits → op v = pure n) (hn : n < 2 ^ b.pointerBits) :
    Steady b b' op (· = n) := by
  refine .same ?_ fun s => ?_
  · change Safe (op b) _
    rw [hop b hn]
    exact .ret rfl
  · change op b s = op b' s
    rw [hop b hn, hop b' (hn.trans_le hb.pow_le)]

theorem safe_usize {n : Nat} (hn : n < 2 ^ 32) : Steady b b' (usize · n) (· = n) :=
  steady_of_fits (fun _ hlt => if_pos hlt) (hn.trans_le hb.pow_32_le)

theorem safe_usizeChecked {n : Nat} (hn : n < 2 ^ 32) :
    Steady b b' (usizeChecked · n) (· = n) :=
  steady_of_fits (fun _ hlt => if_pos hlt) (hn.trans_le hb.pow_32_le)

section

variable {r r' : BitReader} {v k : Nat} (hread : readVarUint r = .ok (v, r'))
  (hsum : v + k < 2 ^ 64)
include hread hsum

theorem agrees_plus : Agrees (comparison b b') (usize · (v + k) r') (Grown r' (· = v + k)) := by
  by_cases hlt : v + k < 2 ^ b.pointerBits
  · exact steady_of_fits (fun _ hlt => if_pos hlt) hlt r'
  have hstop : usize b (v + k) r' = .error .overflow := by rw [usize, if_neg hlt, if_pos hb.checks]
  refine ⟨?_, .inr ⟨_, hstop, trivial⟩, fun e _ _ => ⟨_, Nat.le_of_not_lt hlt, .here (.plus hread)⟩⟩
  change Yields _ _ (usize b (v + k) r')
  rw [hstop]
  exact .inr ⟨trivial, narrow_of_not_lt hsum hlt⟩

theorem agrees_start : Agrees (comparison b b') (usizeChecked · (k + v) r')
    (Grown r' (· = k + v)) := by
  rw [Nat.add_comm] at hsum
  by_cases hlt : k + v < 2 ^ b.pointerBits
  · exact steady_of_fits (fun _ hlt => if_pos hlt) hlt r'
  have hstop : usizeChecked b (k + v) r' = .error (.error .integerOverflow) := by
    rw [usizeChecked, if_neg hlt]
    rfl
  refine ⟨?_, ?_, fun e _ _ => ⟨_, ?_, .here (.start hread)⟩⟩
  · change Yields _ _ (usizeChecked b (k + v) r')
    rw [hstop]
    exact .inr ⟨rfl, narrow_of_not_lt hsum hlt⟩
  · rcases hb.le.lt_or_eq with hless | heq
    · exact .inr ⟨_, hstop, rfl, hless⟩
    · left
      change usizeChecked b (k + v) r' = usizeChecked b' (k + v) r'
      rw [usizeChecked, usizeChecked, heq]
  · change 2 ^ b.pointerBits ≤ v + k
    omega

end

/-! ## Bits -/

theorem safe_readBit : Safe readBit fun _ => True := by
  intro r
  rw [readBit]
  split
  · exact nofun
  · exact ⟨trivial, rfl, Nat.le_succ _⟩

theorem safe_readMany {α : Type} {p : Read α} {post : α → Prop} (h : Safe p post) (count : Nat) :
    Safe (readMany p count) fun l => l.length = count ∧ ∀ a ∈ l, post a := by
  induction count with
  | zero => exact .ret ⟨rfl, by simp⟩
  | succ count ih =>
    refine h.bind fun a ha => ih.bind fun rest hrest => .ret ⟨by simp [hrest.1], ?_⟩
    exact forall_mem_cons.mpr ⟨ha, hrest.2⟩

theorem safe_readBitList (count : Nat) :
    Safe (readBitList count) fun l => l.length = count :=
  (safe_readMany safe_readBit count).weaken fun _ h => h.1

theorem numberOfBits_lt (bits : List Bool) : numberOfBits bits < 2 ^ bits.length := by
  induction bits using List.reverseRecOn with
  | nil => decide
  | append_singleton bits bit ih =>
    rw [numberOfBits, zipIdx_append, foldl_append, zipIdx_singleton,
      foldl_cons, foldl_nil, ← numberOfBits, length_append, length_singleton]
    have hmore : 2 ^ bits.length < 2 ^ (bits.length + 1) :=
      Nat.pow_lt_pow_right (by decide) (Nat.lt_succ_self _)
    cases bit with
    | false => exact ih.trans hmore
    | true => exact Nat.or_lt_two_pow (ih.trans hmore) (by simpa using hmore)

theorem safe_readBits (width : Nat) : Safe (readBits width) (· < 2 ^ width) :=
  (safe_failIf _ _).bind fun _ _ => (safe_readBitList width).bind fun bits hbits =>
    .ret (hbits ▸ numberOfBits_lt bits)

theorem safe_readBigBits (width : Nat) : Safe (readBigBits width) fun _ => True :=
  (safe_readBitList width).bind fun _ _ => .ret trivial

theorem safe_readVarUint : Safe readVarUint (· < 2 ^ 32) := by
  have hwider : ∀ width, width ≤ 32 → Safe (readBits width) (· < 2 ^ 32) := fun width h =>
    (safe_readBits width).weaken fun _ hlt =>
      hlt.trans_le (Nat.pow_le_pow_right (by decide) h)
  refine safe_readBit.bind fun more _ => .ite (fun _ => hwider 4 (by decide)) fun _ => ?_
  refine safe_readBit.bind fun more _ => .ite (fun _ => hwider 8 (by decide)) fun _ => ?_
  exact safe_readBit.bind fun more _ =>
    .ite (fun _ => hwider 16 (by decide)) fun _ => hwider 32 (by decide)

theorem safe_readSignedVarInt : Safe readSignedVarInt fun _ => True :=
  safe_readVarUint.bind fun _ _ => .ret trivial

theorem safe_readVarUintPlus {k : Nat} (hk : k ≤ 2) :
    Steady b b' (readVarUintPlus · k) (k ≤ ·) :=
  safe_readVarUint.nextAt fun r value r' hread hvalue =>
    (agrees_plus hread (by omega)).weaken fun _ h => ⟨by omega, h.2⟩

theorem safe_readBytes (length : Nat) :
    Safe (readBytes length) fun bytes => bytes.length = length := by
  intro r
  rw [readBytes]
  split
  · exact nofun
  · have hbyte : Safe readByte fun _ => True :=
      (safe_readBits 8).bind fun _ _ => .ret trivial
    exact ((safe_readMany hbyte length).weaken fun _ h => h.1) r

theorem safe_assertZeroPadding : Safe assertZeroPadding fun _ => True := by
  intro r
  rw [assertZeroPadding]
  split
  · exact nofun
  · exact ⟨trivial, rfl, Nat.le_max_left _ _⟩

/-! ## Fields -/

theorem safe_assertColorCode (code : Nat) : Safe (assertColorCode code) fun _ => True := by
  rw [assertColorCode]
  split
  · exact .ret trivial
  · exact safe_fail _

theorem safe_readPaletteCode (palette : List Nat) (context : String) :
    Safe (readPaletteCode palette context) fun _ => True :=
  (safe_readBits _).bind fun _ _ => (safe_orFail _ _).weaken fun _ _ => trivial

theorem safe_fittedPrevious (previous : Option (List Nat)) (cellCount : Nat) :
    Safe (fittedPrevious previous cellCount) fun codes => codes.length = cellCount :=
  (safe_orFail _ _).bind fun codes _ => .ret (length_fitCodes codes cellCount)

theorem safe_readPaletteField (cellCount : Nat) :
    Safe (readPaletteField cellCount) fun codes => codes.length = cellCount :=
  (safe_readBits 9).bind fun _ _ => (safe_failIf _ _).bind fun _ _ =>
    (safe_readMany (safe_readPaletteCode _ _) cellCount).weaken fun _ h => h.1

variable {cellCount : Nat}

/-- The runs never outgrow the field, so that the room left for them is a difference. -/
theorem safe_readRuns (runs : Nat) {codes : List Nat} (hcodes : codes.length ≤ cellCount) :
    Steady b b' (readRuns · cellCount runs codes) fun _ => True := by
  induction runs generalizing codes with
  | zero => exact .ret trivial
  | succ runs ih =>
    refine (safe_readBits 4).next fun code _ => (safe_assertColorCode code).next fun _ _ =>
      (safe_readVarUintPlus (by decide)).bind fun length _ => (safe_usizeSub hcodes).bind
      fun room hroom => (safe_failIf _ _).next fun _ hlength => ih ?_
    rw [length_append, length_replicate]
    omega

theorem safe_readRunField (cellCount : Nat) :
    Steady b b' (readRunField · cellCount) fun codes => codes.length = cellCount :=
  safe_readVarUint.next fun _ _ => (safe_failIf _ _).next fun _ _ =>
    (safe_readRuns _ (Nat.zero_le _)).bind fun _ _ => (safe_failIf _ _).next fun _ h =>
      .ret (not_not.mp h)

/-- A saturated index is past the end in either build. -/
theorem changeIndex_eq_or (hcells : cellCount < 2 ^ 32) (previousIndex : Option Nat) (gap : Nat) :
    changeIndex b previousIndex gap = changeIndex b' previousIndex gap ∨
      changeIndex b previousIndex gap ≥ cellCount ∧
        changeIndex b' previousIndex gap ≥ cellCount := by
  have hle := hb.pow_le
  have hwide := hb.pow_32_le
  cases previousIndex with
  | none => exact .inl rfl
  | some prior =>
    simp only [changeIndex, Build.saturatingAdd, Build.maxUsize]
    omega

theorem safe_readChanges (changes : Nat) (previousIndex : Option Nat) {codes : List Nat}
    (hcodes : codes.length = cellCount) :
    Safe (readChanges b cellCount changes previousIndex codes)
      fun codes => codes.length = cellCount := by
  induction changes generalizing previousIndex codes with
  | zero => exact .ret hcodes
  | succ changes ih =>
    refine safe_readVarUint.bind fun gap _ => (safe_readBits 4).bind fun code _ =>
      (safe_assertColorCode code).bind fun _ _ => (safe_failIf _ _).bind fun _ hindex =>
      (safe_stored hcodes ?_ code).bind fun _ hcodes => ih _ hcodes
    rw [not_or] at hindex
    omega

theorem readChanges_eq (hcells : cellCount < 2 ^ 32) (changes : Nat)
    (previousIndex : Option Nat) {codes : List Nat} (hcodes : codes.length = cellCount)
    (r : BitReader) :
    readChanges b cellCount changes previousIndex codes r =
      readChanges b' cellCount changes previousIndex codes r := by
  induction changes generalizing previousIndex codes r with
  | zero => rfl
  | succ changes ih =>
    refine safe_readVarUint.bind_congr (fun gap _ => (safe_readBits 4).bind_congr fun code _ =>
      (safe_assertColorCode code).bind_congr fun _ _ r => ?_) r
    rcases @changeIndex_eq_or b b' hb _ hcells previousIndex gap with heq | ⟨hpast, hpast'⟩
    · rw [heq]
      refine (safe_failIf _ _).bind_congr (fun _ hindex => (safe_stored hcodes ?_ code).bind_congr
        fun _ hcodes r => ih _ hcodes r) r
      rw [not_or] at hindex
      omega
    · rw [failIf, if_pos (Or.inl hpast), failIf, if_pos (Or.inl hpast')]
      rfl

theorem safe_readDeltaField (hcells : cellCount < 2 ^ 32) (previous : Option (List Nat)) :
    Steady b b' (readDeltaField · cellCount previous) fun codes => codes.length = cellCount :=
  (safe_fittedPrevious previous cellCount).next fun _ hcodes => safe_readVarUint.next fun _ _ =>
    (safe_failIf _ _).next fun _ _ => .same (safe_readChanges _ none hcodes)
      (@readChanges_eq b b' hb _ hcells _ none _ hcodes)

theorem safe_readMaskRuns (rounds : Nat) (value : Bool) {occupied : List Bool}
    (hoccupied : occupied.length ≤ cellCount) :
    Steady b b' (readMaskRuns · cellCount rounds value occupied)
      fun occupied => occupied.length = cellCount := by
  induction rounds generalizing value occupied with
  | zero =>
    simp only [Steady, readMaskRuns]
    exact .ite (fun _ => (safe_fail _).tracks) fun hfull => .ret (by omega)
  | succ rounds ih =>
    simp only [Steady, readMaskRuns]
    refine .ite (fun _ => ?_) fun hfull => .ret (by omega)
    refine (safe_readVarUintPlus (by decide)).bind fun length _ =>
      (safe_usizeSub hoccupied).bind fun room hroom => (safe_failIf _ _).next fun _ hlength =>
      ih (!value) ?_
    rw [length_append, length_replicate]
    omega

theorem safe_readOccupancyMask (cellCount : Nat) :
    Steady b b' (readOccupancyMask · cellCount) fun occupied => occupied.length = cellCount := by
  refine safe_readBit.next fun runs _ => .ite (fun _ => (safe_readBitList cellCount).tracks)
    fun _ => .ite (fun _ => ?_) fun hzero => .ret ?_
  · exact safe_readBit.next fun value _ => .read fun r =>
      safe_readMaskRuns _ value (Nat.zero_le _)
  · rw [length_nil]
    omega

theorem safe_readMasked (palette : List Nat) {changed : List Bool} {indices codes : List Nat}
    (hchanged : changed.length = cellCount) (hcodes : codes.length = cellCount)
    (hindices : ∀ i ∈ indices, i < cellCount) :
    Safe (readMasked palette changed indices codes) fun codes => codes.length = cellCount := by
  induction indices generalizing codes with
  | nil => exact .ret hcodes
  | cons index rest ih =>
    obtain ⟨hindex, hrest⟩ := forall_mem_cons.mp hindices
    refine (safe_indexed (hchanged ▸ hindex)).bind fun set _ =>
      .ite (fun _ => ?_) fun _ => ih hcodes hrest
    exact (safe_readPaletteCode palette _).bind fun code _ =>
      (safe_stored hcodes hindex code).bind fun _ hcodes => ih hcodes hrest

theorem safe_readMaskDeltaField (cellCount : Nat) (previous : Option (List Nat)) :
    Steady b b' (readMaskDeltaField · cellCount previous) fun codes => codes.length = cellCount :=
  (safe_fittedPrevious previous cellCount).next fun _ hcodes =>
    (safe_readOccupancyMask cellCount).bind fun _ hchanged => (safe_readBits 9).next fun _ _ =>
    (safe_failIf _ _).next fun _ _ =>
      (safe_readMasked _ hchanged hcodes fun _ hi => mem_range.mp hi).tracks

/-- Runs lie one after another inside the field, so that their lengths add up to no more than it. -/
theorem safe_readRunBounds (hcells : cellCount < 2 ^ 32) (count : Nat)
    {previousEnd changeCount : Nat} {runs : List (Nat × Nat)} (hend : previousEnd ≤ cellCount)
    (hchanges : changeCount ≤ previousEnd) (hruns : ∀ run ∈ runs, run.1 + run.2 ≤ cellCount) :
    Steady b b' (readRunBounds · cellCount count previousEnd changeCount runs)
      fun result => ∀ run ∈ result.1, run.1 + run.2 ≤ cellCount := by
  induction count generalizing previousEnd changeCount runs with
  | zero => exact .ret hruns
  | succ count ih =>
    refine safe_readVarUint.nextAt fun r gap r' hread hgap =>
      Agrees.next (agrees_start hread (by omega)) fun start hstart => ?_
    refine (safe_readVarUintPlus (by decide)).bind fun length _ =>
      (safe_failIf _ _).next fun _ hinside => ?_
    rw [not_or] at hinside
    refine (safe_usizeSub (by omega)).bind fun room hroom => (safe_failIf _ _).next
      fun _ hlength => (safe_usize (by omega)).bind fun changeCount' hchanges' =>
      (safe_usize (by omega)).bind fun previousEnd' hend' => ih ?_ ?_ ?_
    · omega
    · omega
    · intro run hrun
      rcases mem_append.mp hrun with hrun | hrun
      · exact hruns run hrun
      · rw [mem_singleton.mp hrun]
        simp only
        omega

theorem safe_readColors (palette : List Nat) {indices codes : List Nat}
    (hcodes : codes.length = cellCount) (hindices : ∀ i ∈ indices, i < cellCount) :
    Safe (readColors palette indices codes) fun codes => codes.length = cellCount := by
  induction indices generalizing codes with
  | nil => exact .ret hcodes
  | cons index rest ih =>
    obtain ⟨hindex, hrest⟩ := forall_mem_cons.mp hindices
    exact (safe_readPaletteCode palette _).bind fun code _ =>
      (safe_stored hcodes hindex code).bind fun _ hcodes => ih hcodes hrest

theorem safe_readRunDeltaField (hcells : cellCount < 2 ^ 32) (previous : Option (List Nat)) :
    Steady b b' (readRunDeltaField · cellCount previous) fun codes => codes.length = cellCount := by
  refine (safe_fittedPrevious previous cellCount).next fun codes hcodes =>
    (safe_readBits 9).next fun mask _ => safe_readVarUint.next fun runCount _ =>
    (safe_failIf _ _).next fun _ _ =>
    (safe_readRunBounds hcells runCount (Nat.zero_le _) (Nat.le_refl _) (by simp)).bind
    fun result hruns => (safe_failIf _ _).next fun _ _ => (safe_readColors _ hcodes
    fun i hi => ?_).tracks
  obtain ⟨run, hrun, hi⟩ := mem_flatMap.mp hi
  have := hruns run hrun
  have := (mem_range'_1.mp hi).2
  omega

theorem safe_readColorDeltaField (cellCount : Nat) (previous : Option (List Nat)) :
    Steady b b' (readColorDeltaField · cellCount previous) fun codes => codes.length = cellCount :=
  (safe_fittedPrevious previous cellCount).next fun _ hcodes => (safe_readBits 4).next fun _ _ =>
    (safe_assertColorCode _).next fun _ _ => (safe_readOccupancyMask cellCount).bind
    fun _ hchanged => .ret (by rw [length_map, length_zip, hcodes, hchanged, Nat.min_self])

theorem safe_readCombination {total : Nat} (htotal : total < 2 ^ 32) (count : Nat)
    (reason : String) :
    Safe (readCombination total count reason) fun positions => ∀ p ∈ positions, p < total := by
  refine (safe_readBigBits _).bind fun rank _ => (safe_failIf _ _).bind fun _ hrank => ?_
  rw [not_not, cmp_eq, Nat.compare_eq_lt] at hrank
  obtain ⟨positions, hunrank, -, hlt, -⟩ := combinationUnrank_of_lt htotal hrank
  rw [hunrank]
  exact .ret hlt

theorem safe_readCombinationDeltaField (hcells : cellCount < 2 ^ 32) (previous : Option (List Nat)) :
    Safe (readCombinationDeltaField cellCount previous)
      fun codes => codes.length = cellCount :=
  (safe_fittedPrevious previous cellCount).bind fun _ hcodes => safe_readVarUint.bind fun _ _ =>
    (safe_failIf _ _).bind fun _ _ => (safe_readCombination hcells _ _).bind fun _ hlt =>
    (safe_readBits 9).bind fun _ _ => (safe_failIf _ _).bind fun _ _ =>
      safe_readColors _ hcodes hlt

/-! ### Painting -/

variable {remaining codes : List Nat}

theorem safe_paint (code : Nat) {positions : List Nat} (hremaining : ∀ i ∈ remaining, i < cellCount)
    (hcodes : codes.length = cellCount) (hpositions : ∀ p ∈ positions, p < remaining.length) :
    Safe (paint remaining code positions codes) fun codes => codes.length = cellCount := by
  induction positions generalizing codes with
  | nil => exact .ret hcodes
  | cons position positions ih =>
    obtain ⟨hposition, hrest⟩ := forall_mem_cons.mp hpositions
    exact (safe_indexed hposition).bind fun index hindex =>
      (safe_stored hcodes (hremaining index (mem_of_getElem? hindex)) code).bind
        fun _ hcodes => ih hcodes hrest

theorem safe_paintAll (code : Nat) (hremaining : ∀ i ∈ remaining, i < cellCount)
    (hcodes : codes.length = cellCount) :
    Safe (paintAll code remaining codes) fun codes => codes.length = cellCount := by
  induction remaining generalizing codes with
  | nil => exact .ret hcodes
  | cons index remaining ih =>
    obtain ⟨hindex, hrest⟩ := forall_mem_cons.mp hremaining
    exact (safe_stored hcodes hindex code).bind fun _ hcodes => ih hrest hcodes

theorem removeRelativePositions_sublist (values positions : List Nat) :
    (removeRelativePositions values positions).Sublist values := by
  have h := ((filter_sublist (l := values.zipIdx)
    (p := fun x => !positions.contains x.2)).map Prod.fst)
  rwa [zipIdx_map_fst] at h

/-- The part of the field that is painted, and the cells that are left. -/
def Painted (cellCount : Nat) (result : List Nat × List Nat) : Prop :=
  result.1.length = cellCount ∧ ∀ i ∈ result.2, i < cellCount

theorem safe_readMultiset (palette : List Nat) (hcells : cellCount < 2 ^ 32)
    (hsize : remaining.length ≤ cellCount) (hremaining : ∀ i ∈ remaining, i < cellCount)
    (hcodes : codes.length = cellCount) :
    Safe (readMultiset palette remaining codes) (Painted cellCount) := by
  induction palette generalizing remaining codes with
  | nil => exact .ret ⟨hcodes, hremaining⟩
  | cons code palette ih =>
    refine safe_readVarUint.bind fun count _ => (safe_failIf _ _).bind fun _ _ =>
      (safe_readCombination (hsize.trans_lt hcells) count _).bind fun positions hpositions =>
      (safe_paint code hremaining hcodes hpositions).bind fun codes' hcodes' => ?_
    have hsub := removeRelativePositions_sublist remaining positions
    exact ih (hsub.length_le.trans hsize) (fun i hi => hremaining i (hsub.subset hi)) hcodes'

theorem safe_readMultisetEncoding (hcells : cellCount < 2 ^ 32) :
    Safe (readMultisetEncoding cellCount) fun codes => codes.length = cellCount :=
  (safe_readBits 9).bind fun _ _ => (safe_orFail _ _).bind fun _ _ =>
    (safe_readMultiset _ hcells (by simp) (fun _ hi => mem_range.mp hi) (by simp)).bind
      fun _ hpainted => safe_paintAll _ hpainted.2 hpainted.1

theorem length_occupiedCells_le (occupied : List Bool) :
    (occupiedCells occupied).length ≤ occupied.length := by
  rw [occupiedCells, length_map, ← length_zipIdx (l := occupied) (i := 0)]
  exact length_filter_le _ _

theorem safe_readTetrominoes (palette : List Nat) (hcells : cellCount < 2 ^ 32)
    (hsize : remaining.length ≤ cellCount) (hremaining : ∀ i ∈ remaining, i < cellCount)
    (hcodes : codes.length = cellCount) :
    Safe (readTetrominoes palette remaining codes) (Painted cellCount) := by
  induction palette generalizing remaining codes with
  | nil => exact .ret ⟨hcodes, hremaining⟩
  | cons code palette ih =>
    refine (safe_readCombination (hsize.trans_lt hcells) 4 _).bind fun positions hpositions =>
      (safe_paint code hremaining hcodes hpositions).bind fun codes' hcodes' => ?_
    have hsub := removeRelativePositions_sublist remaining positions
    exact ih (hsub.length_le.trans hsize) (fun i hi => hremaining i (hsub.subset hi)) hcodes'

theorem safe_readTetrominoColorEncoding (hcells : cellCount < 2 ^ 32) :
    Steady b b' (readTetrominoColorEncoding · cellCount) fun codes => codes.length = cellCount := by
  refine (safe_readOccupancyMask cellCount).bind fun occupied hoccupied =>
    (safe_readBits 7).next fun mask _ => (safe_orFail _ _).next fun last _ =>
    (safe_failIf _ _).next fun _ _ => (safe_readTetrominoes _ hcells
      (hoccupied ▸ length_occupiedCells_le occupied) (fun i hi => ?_) (by simp)).next
    fun result hpainted => (safe_paintAll last hpainted.2 hpainted.1).tracks
  rw [← hoccupied]
  exact (List.getElem?_eq_some_iff.mp (mem_occupiedCells.mp hi)).1

theorem safe_readOccupied (palette : List Nat) (occupied : List Bool) :
    Safe (readOccupied palette occupied) fun codes => codes.length = occupied.length := by
  induction occupied with
  | nil => exact .ret rfl
  | cons set occupied ih =>
    have hcode : Safe (readOccupiedCode palette set) fun _ => True := by
      rw [readOccupiedCode]
      split
      · exact safe_readPaletteCode palette _
      · exact .ret trivial
    exact hcode.bind fun code _ => ih.bind fun codes hcodes => .ret (by simp [hcodes])

theorem safe_readOccupancyField (cellCount : Nat) :
    Steady b b' (readOccupancyField · cellCount) fun codes => codes.length = cellCount :=
  (safe_readOccupancyMask cellCount).bind fun _ hoccupied => (safe_readBits 8).next fun _ _ =>
    (safe_failIf _ _).next fun _ _ =>
      ((safe_readOccupied _ _).weaken fun _ hcodes => hcodes.trans hoccupied).tracks

theorem safe_readField (hcells : cellCount < 2 ^ 32) (previous : Option (List Nat))
    (modeWidth mode : Nat) :
    Steady b b' (readField · cellCount previous modeWidth mode)
      fun codes => codes.length = cellCount := by
  simp only [Steady, readField]
  refine .ite (fun _ => (safe_readPaletteField cellCount).tracks) fun _ => ?_
  refine .ite (fun _ => safe_readRunField cellCount) fun _ => ?_
  refine .ite (fun _ => safe_readDeltaField hcells previous) fun _ => ?_
  refine .ite (fun _ => (safe_readMultisetEncoding hcells).tracks) fun _ => ?_
  refine .ite (fun _ => safe_readTetrominoColorEncoding hcells) fun _ => ?_
  refine .ite (fun _ => (safe_fittedPrevious previous cellCount).tracks) fun _ => ?_
  refine .ite (fun _ => .ret length_replicate) fun _ => ?_
  refine .ite (fun _ => safe_readMaskDeltaField cellCount previous) fun _ => ?_
  refine .ite (fun _ => safe_readRunDeltaField hcells previous) fun _ => ?_
  refine .ite (fun _ => safe_readColorDeltaField cellCount previous) fun _ => ?_
  refine .ite (fun _ => (safe_readCombinationDeltaField hcells previous).tracks) fun _ => ?_
  exact .ite (fun _ => (safe_fail _).tracks) fun _ => safe_readOccupancyField cellCount

theorem safe_readCellEncoding (hcells : cellCount < 2 ^ 32)
    (previous : Option (List Nat)) (modeWidth : Nat) :
    Steady b b' (readCellEncoding · cellCount previous modeWidth)
      fun codes => codes.length = cellCount :=
  (safe_readBits modeWidth).next fun mode _ => safe_readField hcells previous modeWidth mode

end Clearra.Proof.Ctk3
