import Mathlib.Data.List.DropRight
import Mathlib.Data.Nat.Digits.Lemmas

/-!
# Arbitrary precision

Combination ranks of a field of up to 31 × 31 cells fit no primitive integer, so the codec keeps its
own: limbs of 32 bits, least significant first, no zero limb on top. The loops below are the
source's, limb by limb with their carries; every value that is built from them again has its limbs
in range and none wasted, and the type says so.
-/

namespace Clearra.Ctk3

open List Nat Option

/-- `2^32`. -/
def limbBase : Nat := 2 ^ 32

/-! ## The loops -/

namespace Limbs

/-- `normalize`: pops zero limbs off the top. -/
def normalize (limbs : List Nat) : List Nat := limbs.rdropWhile (· = 0)

/-- The loop of `add_assign`; the second list is read as zeros past its end. -/
def addLoop : List Nat → List Nat → Nat → List Nat
  | [], _, carry => if carry ≠ 0 then [carry] else []
  | a :: as, bs, carry =>
    let value := a + bs.headD 0 + carry
    (value % limbBase) :: addLoop as bs.tail (value / limbBase)

/-- `add_assign`: the first list is resized to the second's length. -/
def add (as bs : List Nat) : List Nat :=
  addLoop (as ++ List.replicate (bs.length - as.length) 0) bs 0

/-- The loop of `checked_sub_assign`; the second list is read as zeros past its end. -/
def subLoop : List Nat → List Nat → Nat → List Nat
  | [], _, _ => []
  | a :: as, bs, borrow =>
    let rhs := bs.headD 0 + borrow
    if a ≥ rhs then (a - rhs) :: subLoop as bs.tail 0
    else (limbBase + a - rhs) :: subLoop as bs.tail 1

/-- The loop of `mul_u32_assign`. -/
def mulLoop (factor : Nat) : List Nat → Nat → List Nat
  | [], carry => if carry ≠ 0 then [carry] else []
  | limb :: limbs, carry =>
    ((limb * factor + carry) % limbBase) :: mulLoop factor limbs ((limb * factor + carry) / limbBase)

/-- The loop of `div_u32_assign`, which runs from the most significant limb: quotient limbs and
    remainder. -/
def divLoop (divisor : Nat) : List Nat → List Nat × Nat
  | [] => ([], 0)
  | limb :: limbs =>
    let (quotient, remainder) := divLoop divisor limbs
    let value := remainder * limbBase + limb
    ((value / divisor) :: quotient, value % divisor)

/-- `limbs.iter().rev().cmp(other.limbs.iter().rev())` for lists of one length. -/
def cmpTop : List Nat → List Nat → Ordering
  | a :: as, b :: bs => (cmpTop as bs).then (compare a b)
  | _, _ => .eq

def cmp (a b : List Nat) : Ordering := (compare a.length b.length).then (cmpTop a b)

/-! ## What the loops keep -/

/-- Limbs of 32 bits. -/
def Fit (limbs : List Nat) : Prop := ∀ limb ∈ limbs, limb < limbBase

/-- No zero limb on top. -/
def Tight (limbs : List Nat) : Prop := limbs.getLast? ≠ some 0

variable {limbs : List Nat}

theorem tight_cons {limb : Nat} :
    Tight (limb :: limbs) ↔ (limbs = [] → limb ≠ 0) ∧ Tight limbs := by
  cases limbs with
  | nil => simp [Tight]
  | cons next rest => simp [Tight, getLast?_cons_cons]

theorem fit_cons {limb : Nat} : Fit (limb :: limbs) ↔ limb < limbBase ∧ Fit limbs := forall_mem_cons

theorem tight_normalize (limbs : List Nat) : Tight (normalize limbs) := by
  intro h
  rw [normalize] at h
  have hne : limbs.rdropWhile (fun limb => decide (limb = 0)) ≠ [] := by
    rintro hnil
    rw [hnil] at h
    simp at h
  rw [getLast?_eq_some_getLast hne, Option.some.injEq] at h
  exact rdropWhile_last_not _ _ hne (by simpa using h)

theorem fit_normalize (h : Fit limbs) : Fit (normalize limbs) :=
  fun limb hlimb => h limb ((List.rdropWhile_prefix _ limbs).subset hlimb)

variable {carry : Nat}

theorem fit_carry (h : carry < limbBase) : Fit (if carry ≠ 0 then [carry] else []) := by
  split
  · exact fit_cons.mpr ⟨h, fun _ hmem => absurd hmem (by simp)⟩
  · exact fun _ hmem => absurd hmem (by simp)

theorem tight_carry (carry : Nat) : Tight (if carry ≠ 0 then [carry] else []) := by
  split
  · simpa [Tight]
  · simp [Tight]

theorem mod_lt_base (n : Nat) : n % limbBase < limbBase := mod_lt _ (by decide)

theorem div_lt_of_lt {n k : Nat} (h : n < limbBase * k) : n / limbBase < k :=
  Nat.div_lt_of_lt_mul h

theorem headD_lt {bs : List Nat} (hb : Fit bs) : bs.headD 0 < limbBase := by
  cases bs with
  | nil => decide
  | cons b bs => exact (fit_cons.mp hb).1

theorem fit_tail {bs : List Nat} (hb : Fit bs) : Fit bs.tail :=
  fun limb hlimb => hb limb (mem_of_mem_tail hlimb)

variable {as bs : List Nat}

theorem fit_addLoop (ha : Fit as) (hb : Fit bs) (hcarry : carry ≤ 1) :
    Fit (addLoop as bs carry) := by
  induction as generalizing bs carry with
  | nil => exact fit_carry (Nat.lt_of_le_of_lt hcarry (by decide))
  | cons a as ih =>
    obtain ⟨hlt, ha'⟩ := fit_cons.mp ha
    have hhead := headD_lt hb
    refine fit_cons.mpr ⟨mod_lt_base _, ih ha' (fit_tail hb) ?_⟩
    exact Nat.lt_succ_iff.mp (div_lt_of_lt (by omega))

/-- Past the last limb of the sum only a carry can stand, and a zero carry is not pushed. So the
    sum is tight if one summand is and the other is no longer. -/
theorem tight_addLoop (hlen : bs.length ≤ as.length)
    (h : Tight as ∨ bs.length = as.length ∧ Tight bs) : Tight (addLoop as bs carry) := by
  induction as generalizing bs carry with
  | nil => exact tight_carry carry
  | cons a as ih =>
    have htail : bs.tail.length ≤ as.length := by
      rw [length_tail]
      exact sub_le_of_le_add hlen
    -- the limb below is nonzero if nothing stands above it
    have htop : as = [] → a + bs.headD 0 ≠ 0 := by
      rintro rfl
      rcases h with h | ⟨hone, h⟩
      · have := (tight_cons.mp h).1 rfl
        omega
      · obtain ⟨b, rfl⟩ := length_eq_one_iff.mp hone
        have := (tight_cons.mp h).1 rfl
        rw [headD_cons]
        omega
    refine tight_cons.mpr ⟨fun hnil hzero => ?_, ih htail (h.imp (fun h => (tight_cons.mp h).2) ?_)⟩
    · cases as with
      | cons next rest => exact absurd hnil (by simp [addLoop])
      | nil =>
        rw [addLoop, ite_eq_right_iff] at hnil
        have hdiv : (a + bs.headD 0 + carry) / limbBase = 0 := by
          by_contra hne
          exact absurd (hnil hne) (by simp)
        have hsum := div_add_mod (a + bs.headD 0 + carry) limbBase
        rw [hdiv, hzero] at hsum
        have := htop rfl
        omega
    · rintro ⟨heq, hb⟩
      cases bs with
      | nil => simp at heq
      | cons b bs => exact ⟨Nat.succ.inj heq, (tight_cons.mp hb).2⟩

theorem fit_add (ha : Fit as) (hb : Fit bs) : Fit (add as bs) := by
  refine fit_addLoop (fun limb hlimb => ?_) hb (Nat.zero_le 1)
  rcases mem_append.mp hlimb with hlimb | hlimb
  · exact ha limb hlimb
  · rw [eq_of_mem_replicate hlimb]
    decide

theorem tight_add (ha : Tight as) (hb : Tight bs) : Tight (add as bs) := by
  rw [add]
  rcases Nat.le_total bs.length as.length with hle | hle
  · rw [Nat.sub_eq_zero_of_le hle, replicate_zero, append_nil]
    exact tight_addLoop hle (Or.inl ha)
  · have hlen : bs.length = (as ++ List.replicate (bs.length - as.length) 0).length := by
      rw [length_append, length_replicate]
      omega
    exact tight_addLoop hlen.le (Or.inr ⟨hlen, hb⟩)

theorem fit_subLoop {borrow : Nat} (ha : Fit as) : Fit (subLoop as bs borrow) := by
  induction as generalizing bs borrow with
  | nil => exact fun _ hmem => absurd hmem (by simp [subLoop])
  | cons a as ih =>
    obtain ⟨hlt, ha'⟩ := fit_cons.mp ha
    rw [subLoop]
    split
    · exact fit_cons.mpr ⟨by omega, ih ha'⟩
    · exact fit_cons.mpr ⟨by omega, ih ha'⟩

theorem mul_add_lt {limb factor carry : Nat} (hl : limb < limbBase) (hf : factor < limbBase)
    (hc : carry < limbBase) : limb * factor + carry < limbBase * limbBase := by
  have hmul : limb * factor ≤ (limbBase - 1) * (limbBase - 1) :=
    Nat.mul_le_mul (by omega) (by omega)
  have hsquare : (limbBase - 1) * (limbBase - 1) + limbBase ≤ limbBase * limbBase := by decide
  omega

theorem fit_mulLoop {factor : Nat} (hf : factor < limbBase) (h : Fit limbs)
    (hcarry : carry < limbBase) : Fit (mulLoop factor limbs carry) := by
  induction limbs generalizing carry with
  | nil => exact fit_carry hcarry
  | cons limb limbs ih =>
    obtain ⟨hlt, h'⟩ := fit_cons.mp h
    exact fit_cons.mpr ⟨mod_lt_base _, ih h' (div_lt_of_lt (mul_add_lt hlt hf hcarry))⟩

theorem tight_mulLoop {factor : Nat} (hf : factor ≠ 0) (h : Tight limbs) :
    Tight (mulLoop factor limbs carry) := by
  induction limbs generalizing carry with
  | nil => exact tight_carry carry
  | cons limb limbs ih =>
    obtain ⟨hne, h'⟩ := tight_cons.mp h
    refine tight_cons.mpr ⟨fun hnil hzero => ?_, ih h'⟩
    cases limbs with
    | cons next rest => exact absurd hnil (by simp [mulLoop])
    | nil =>
      rw [mulLoop, ite_eq_right_iff] at hnil
      have hdiv : (limb * factor + carry) / limbBase = 0 := by
        by_contra hpos
        exact absurd (hnil hpos) (by simp)
      have hsum : limb * factor + carry = 0 := by
        rw [← div_add_mod (limb * factor + carry) limbBase, hdiv, hzero]
        rfl
      exact Nat.mul_ne_zero (hne rfl) hf (by omega)

theorem fit_divLoop (divisor : Nat) (h : Fit limbs) :
    Fit (divLoop divisor limbs).1 ∧ (divisor ≠ 0 → (divLoop divisor limbs).2 < divisor) := by
  induction limbs with
  | nil => exact ⟨fun _ hmem => absurd hmem (by simp [divLoop]), fun hd => Nat.pos_of_ne_zero hd⟩
  | cons limb limbs ih =>
    obtain ⟨hlt, h'⟩ := fit_cons.mp h
    obtain ⟨hquotient, hremainder⟩ := ih h'
    rw [divLoop]
    refine ⟨fit_cons.mpr ⟨?_, hquotient⟩, fun hd => mod_lt _ (Nat.pos_of_ne_zero hd)⟩
    rcases Nat.eq_zero_or_pos divisor with rfl | hpos
    · rw [Nat.div_zero]
      decide
    · refine Nat.div_lt_of_lt_mul ?_
      have := hremainder hpos.ne'
      have : (divLoop divisor limbs).2 * limbBase + limbBase ≤ divisor * limbBase := by
        rw [← succ_mul]
        exact Nat.mul_le_mul_right _ this
      omega

/-- `set_bit` on the limbs: resized, then one bit set. -/
def setBit (limbs : List Nat) (index : Nat) : List Nat :=
  (limbs ++ List.replicate (index / 32 + 1 - limbs.length) 0).modify (index / 32)
    (· ||| 2 ^ (index % 32))

theorem two_pow_mod_lt (index : Nat) : 2 ^ (index % 32) < limbBase :=
  Nat.pow_lt_pow_right (by decide) (mod_lt _ (by decide))

theorem fit_setBit (h : Fit limbs) (index : Nat) : Fit (setBit limbs index) := by
  intro limb hlimb
  obtain ⟨i, hi⟩ := mem_iff_getElem?.mp hlimb
  rw [setBit, getElem?_modify] at hi
  obtain ⟨old, hold, rfl⟩ := map_eq_some_iff.mp hi
  have hlt : old < limbBase := by
    rcases mem_append.mp (mem_of_getElem? hold) with hmem | hmem
    · exact h old hmem
    · rw [eq_of_mem_replicate hmem]
      decide
  split
  · exact or_lt_two_pow hlt (two_pow_mod_lt index)
  · exact hlt

theorem tight_setBit (h : Tight limbs) (index : Nat) : Tight (setBit limbs index) := by
  have hor : ∀ n, n ||| 2 ^ (index % 32) ≠ 0 := by
    intro n hzero
    have := congrArg (Nat.testBit · (index % 32)) hzero
    simp [testBit_or, testBit_two_pow_self] at this
  rw [Tight, setBit, getLast?_eq_getElem?, getElem?_modify, length_modify]
  intro hlast
  obtain ⟨old, hold, hval⟩ := map_eq_some_iff.mp hlast
  -- the top limb is the one with the new bit, or it was the top limb before
  split at hval
  · exact hor old hval
  · rename_i hne
    rw [length_append, length_replicate] at hold hne
    have hlen : index / 32 + 1 ≤ limbs.length := by
      by_contra hgt
      have : limbs.length + (index / 32 + 1 - limbs.length) - 1 = index / 32 := by omega
      exact hne this.symm
    rw [Nat.sub_eq_zero_of_le hlen, replicate_zero, append_nil, Nat.add_zero,
      ← getLast?_eq_getElem?] at hold
    exact h (hold.trans (congrArg some hval))

end Limbs

/-! ## The type -/

/-- `BigNat`. Zero has no limbs. -/
structure BigNat where
  limbs : List Nat
  fit : Limbs.Fit limbs
  tight : Limbs.Tight limbs

/-- `32 - leading_zeros`, and the same of a `usize`. -/
def bitWidth (n : Nat) : Nat := if n = 0 then 0 else n.log2 + 1

namespace BigNat

def zero : BigNat := ⟨[], fun _ h => absurd h (by simp), by simp [Limbs.Tight]⟩

def one : BigNat :=
  ⟨[1], fun limb h => by rw [mem_singleton.mp h]; decide, by simp [Limbs.Tight]⟩

def isZero (v : BigNat) : Bool := v.limbs.isEmpty

def bitLen (v : BigNat) : Nat :=
  match v.limbs.getLast? with
  | none => 0
  | some top => (v.limbs.length - 1) * 32 + bitWidth top

def bit (v : BigNat) (index : Nat) : Bool := (v.limbs.getD (index / 32) 0).testBit (index % 32)

def setBit (v : BigNat) (index : Nat) : BigNat :=
  ⟨Limbs.setBit v.limbs index, Limbs.fit_setBit v.fit index, Limbs.tight_setBit v.tight index⟩

def addAssign (v other : BigNat) : BigNat :=
  ⟨Limbs.add v.limbs other.limbs, Limbs.fit_add v.fit other.fit, Limbs.tight_add v.tight other.tight⟩

/-- `Ord::cmp`. -/
def cmp (v other : BigNat) : Ordering := Limbs.cmp v.limbs other.limbs

def checkedSubAssign (v other : BigNat) : Option BigNat :=
  if v.cmp other = .lt then none
  else some ⟨Limbs.normalize (Limbs.subLoop v.limbs other.limbs 0),
    Limbs.fit_normalize (Limbs.fit_subLoop v.fit), Limbs.tight_normalize _⟩

def mulU32Assign (v : BigNat) (factor : BitVec 32) : BigNat :=
  if h : factor.toNat = 0 ∨ v.limbs = [] then zero
  else ⟨Limbs.mulLoop factor.toNat v.limbs 0,
    Limbs.fit_mulLoop factor.isLt v.fit (by decide),
    Limbs.tight_mulLoop (fun hzero => h (Or.inl hzero)) v.tight⟩

def divU32Assign (v : BigNat) (divisor : BitVec 32) : BigNat × Nat :=
  let result := Limbs.divLoop divisor.toNat v.limbs
  (⟨Limbs.normalize result.1, Limbs.fit_normalize (Limbs.fit_divLoop _ v.fit).1,
    Limbs.tight_normalize _⟩, result.2)

/-- Called on positive values only. -/
def subtractOne (v : BigNat) : BigNat := (v.checkedSubAssign one).getD v

end BigNat

/-! ## Combinations -/

def combinationCount (total selected : Nat) : BigNat :=
  if selected > total then .zero
  else
    let count := min selected (total - selected)
    (List.range' 1 count).foldl (fun value index =>
      ((value.mulU32Assign (BitVec.ofNat 32 (total - count + index))).divU32Assign
        (BitVec.ofNat 32 index)).1) .one

def combinationRank (positions : List Nat) : BigNat :=
  positions.zipIdx.foldl (fun rank (position, index) =>
    rank.addAssign (combinationCount position (index + 1))) .zero

/-- The binary search of `combination_unrank` for the largest position that fits. -/
def searchPosition (index : Nat) (rank : BigNat) : Nat → Nat → Nat → Nat → Nat
  | 0, _, _, position => position
  | fuel + 1, low, high, position =>
    if low ≤ high then
      let candidate := low + (high - low) / 2
      if (combinationCount candidate index).cmp rank ≠ .gt then
        searchPosition index rank fuel (candidate + 1) high candidate
      else if candidate = 0 then position
      else searchPosition index rank fuel low (candidate - 1) position
    else position

/-- The loop of `combination_unrank`, from the largest position down: the positions found so far and
    what is left of the rank. -/
def unrankLoop : Nat → Nat → BigNat → List Nat → Option (List Nat)
  | 0, _, rank, positions => if rank.isZero then some positions else none
  | index + 1, upper, rank, positions => do
    let position := searchPosition (index + 1) rank (upper + 1) index upper index
    let rank ← rank.checkedSubAssign (combinationCount position (index + 1))
    if index > 0 then
      if position = 0 then none
      else unrankLoop index (position - 1) rank (position :: positions)
    else unrankLoop index upper rank (position :: positions)

def combinationUnrank (total selected : Nat) (rank : BigNat) : Option (List Nat) :=
  if selected > total then none
  else if selected = 0 then if rank.isZero then some [] else none
  else unrankLoop selected (total - 1) rank []

def bitsForChoices (choiceCount : Nat) : Nat :=
  if choiceCount ≤ 1 then 0 else bitWidth (choiceCount - 1)

def bitsForBigChoices (choiceCount : BigNat) : Nat :=
  if choiceCount.cmp .one ≠ .gt then 0 else choiceCount.subtractOne.bitLen

end Clearra.Ctk3
