import Clearra.Ctk3.BigNat
import Clearra.Lib.Combinadic
import Mathlib.Data.List.GetD
import Mathlib.Data.Nat.Choose.Basic

/-!
# The limbs compute

`toNat` reads the limbs as a number; each operation of `BigNat` is the operation on numbers it is
named after. After this module nobody looks at limbs again.
-/

namespace Clearra.Proof.Ctk3

open Clearra.Ctk3 Lib List Nat Option
open Clearra.Ctk3.Limbs (Fit Tight)

/-- The number the limbs stand for. -/
def value (limbs : List Nat) : Nat := Nat.ofDigits limbBase limbs

theorem value_nil : value [] = 0 := rfl

theorem value_cons (limb : Nat) (limbs : List Nat) :
    value (limb :: limbs) = limb + limbBase * value limbs := ofDigits_cons

theorem value_append_zeros (limbs : List Nat) (k : Nat) :
    value (limbs ++ List.replicate k 0) = value limbs := ofDigits_append_replicate_zero limbs

theorem value_headD_tail (limbs : List Nat) :
    value limbs = limbs.headD 0 + limbBase * value limbs.tail := by
  cases limbs with
  | nil => rfl
  | cons limb limbs => exact value_cons limb limbs

variable {limbs : List Nat}

theorem value_lt (h : Fit limbs) : value limbs < limbBase ^ limbs.length :=
  ofDigits_lt_base_pow_length (by decide) h

theorem value_carry (carry : Nat) : value (if carry ≠ 0 then [carry] else []) = carry := by
  split
  · rw [value_cons, value_nil, Nat.mul_zero, Nat.add_zero]
  · rename_i h
    rw [value_nil, not_not.mp h]

theorem value_normalize (limbs : List Nat) : value (Limbs.normalize limbs) = value limbs := by
  induction limbs using List.reverseRecOn with
  | nil => rfl
  | append_singleton limbs limb ih =>
    rw [Limbs.normalize, rdropWhile_concat]
    split
    · rename_i h
      rw [of_decide_eq_true h, ← replicate_one, value_append_zeros]
      exact ih
    · rfl

/-! ## The loops -/

theorem split_limb (n rest : Nat) : n % limbBase + limbBase * (rest + n / limbBase) =
    n + limbBase * rest := by
  have := mod_add_div n limbBase
  rw [Nat.mul_add]
  omega

variable {as bs : List Nat}

theorem value_addLoop {carry : Nat} (hlen : bs.length ≤ as.length) :
    value (Limbs.addLoop as bs carry) = value as + value bs + carry := by
  induction as generalizing bs carry with
  | nil =>
    rw [length_nil, le_zero, length_eq_zero_iff] at hlen
    rw [Limbs.addLoop, value_carry, hlen, value_nil, Nat.zero_add]
  | cons a as ih =>
    have htail : bs.tail.length ≤ as.length := by
      rw [length_tail]
      exact sub_le_of_le_add hlen
    rw [Limbs.addLoop, value_cons, ih htail, split_limb, value_cons, value_headD_tail bs]
    ring

theorem value_add (as bs : List Nat) : value (Limbs.add as bs) = value as + value bs := by
  have hlen : bs.length ≤ (as ++ List.replicate (bs.length - as.length) 0).length := by
    rw [length_append, length_replicate]
    omega
  rw [Limbs.add, value_addLoop hlen, value_append_zeros, Nat.add_zero]

theorem value_mulLoop (factor : Nat) (limbs : List Nat) (carry : Nat) :
    value (Limbs.mulLoop factor limbs carry) = value limbs * factor + carry := by
  induction limbs generalizing carry with
  | nil => rw [Limbs.mulLoop, value_carry, value_nil, Nat.zero_mul, Nat.zero_add]
  | cons limb limbs ih =>
    rw [Limbs.mulLoop, value_cons, ih, split_limb, value_cons]
    ring

/-- Long division, from the top: what is above has been divided, its remainder is carried down. -/
theorem value_divLoop {divisor : Nat} (hd : 0 < divisor) (limbs : List Nat) :
    value (Limbs.divLoop divisor limbs).1 = value limbs / divisor ∧
      (Limbs.divLoop divisor limbs).2 = value limbs % divisor := by
  induction limbs with
  | nil => exact ⟨(Nat.zero_div _).symm, (zero_mod _).symm⟩
  | cons limb limbs ih =>
    obtain ⟨hquotient, hremainder⟩ := ih
    have hsplit : value (limb :: limbs) =
        value limbs % divisor * limbBase + limb + divisor * (limbBase * (value limbs / divisor)) := by
      conv_lhs => rw [value_cons, ← mod_add_div (value limbs) divisor]
      ring
    rw [Limbs.divLoop]
    dsimp only
    rw [value_cons, hquotient, hremainder, hsplit, add_mul_div_left _ _ hd, add_mul_mod_self_left]
    exact ⟨rfl, rfl⟩

/-- The borrow of the whole is lost at the top: the loop is right when nothing is borrowed there. -/
theorem value_subLoop {borrow : Nat} (ha : Fit as) (hb : Fit bs) (hborrow : borrow ≤ 1)
    (hlen : bs.length ≤ as.length) (hle : value bs + borrow ≤ value as) :
    value (Limbs.subLoop as bs borrow) + (value bs + borrow) = value as := by
  induction as generalizing bs borrow with
  | nil =>
    rw [length_nil, le_zero, length_eq_zero_iff] at hlen
    subst hlen
    rw [value_nil] at hle
    rw [Limbs.subLoop, value_nil]
    omega
  | cons a as ih =>
    obtain ⟨hlt, ha'⟩ := Limbs.fit_cons.mp ha
    have hhead := Limbs.headD_lt hb
    have htail : bs.tail.length ≤ as.length := by
      rw [length_tail]
      exact sub_le_of_le_add hlen
    rw [value_headD_tail bs, value_cons] at hle ⊢
    rw [Limbs.subLoop]
    split
    · -- enough in this limb: the limbs above are compared without a borrow
      have hle' : value bs.tail ≤ value as := by
        refine Nat.lt_succ_iff.mp (Nat.lt_of_mul_lt_mul_left (a := limbBase) ?_)
        rw [mul_succ]
        omega
      have hrest := ih ha' (Limbs.fit_tail hb) (Nat.zero_le 1) htail hle'
      rw [Nat.add_zero] at hrest
      rw [value_cons, ← hrest, Nat.mul_add]
      omega
    · have hle' : value bs.tail + 1 ≤ value as := by
        refine succ_le_of_lt (Nat.lt_of_mul_lt_mul_left (a := limbBase) ?_)
        omega
      have hrest := ih ha' (Limbs.fit_tail hb) (Nat.le_refl 1) htail hle'
      rw [value_cons, ← hrest, Nat.mul_add, Nat.mul_add, Nat.mul_one]
      omega

/-! ## Order -/

theorem value_cmpTop (ha : Fit as) (hb : Fit bs) (hlen : as.length = bs.length) :
    Limbs.cmpTop as bs = compare (value as) (value bs) := by
  induction as generalizing bs with
  | nil =>
    obtain rfl := length_eq_zero_iff.mp hlen.symm
    exact (compare_eq_iff_eq.mpr rfl).symm
  | cons a as ih =>
    cases bs with
    | nil => simp at hlen
    | cons b bs =>
      obtain ⟨hlt, ha'⟩ := Limbs.fit_cons.mp ha
      obtain ⟨hlt', hb'⟩ := Limbs.fit_cons.mp hb
      rw [Limbs.cmpTop, ih ha' hb' (Nat.succ.inj hlen), value_cons, value_cons]
      -- the limbs above decide, and only if they agree this one
      rcases Nat.lt_trichotomy (value as) (value bs) with h | h | h
      · have hmul : limbBase * (value as + 1) ≤ limbBase * value bs := Nat.mul_le_mul_left _ h
        rw [mul_succ] at hmul
        rw [compare_lt_iff_lt.mpr h, Ordering.lt_then, eq_comm, compare_lt_iff_lt]
        omega
      · rw [h, compare_eq_iff_eq.mpr rfl, Ordering.eq_then]
        rcases Nat.lt_trichotomy a b with hab | hab | hab
        · rw [compare_lt_iff_lt.mpr hab, eq_comm, compare_lt_iff_lt]
          omega
        · rw [hab, compare_eq_iff_eq.mpr rfl, compare_eq_iff_eq.mpr rfl]
        · rw [compare_gt_iff_gt.mpr hab, eq_comm, compare_gt_iff_gt]
          omega
      · have hmul : limbBase * (value bs + 1) ≤ limbBase * value as := Nat.mul_le_mul_left _ h
        rw [mul_succ] at hmul
        rw [compare_gt_iff_gt.mpr h, Ordering.gt_then, eq_comm, compare_gt_iff_gt]
        omega

theorem le_value_of_tight (h : Tight limbs) (hne : limbs ≠ []) :
    limbBase ^ (limbs.length - 1) ≤ value limbs := by
  induction limbs with
  | nil => exact absurd rfl hne
  | cons limb limbs ih =>
    obtain ⟨hlast, htight⟩ := Limbs.tight_cons.mp h
    rw [length_cons, Nat.add_sub_cancel, value_cons]
    by_cases hnil : limbs = []
    · rw [hnil, length_nil, Nat.pow_zero]
      have := hlast hnil
      omega
    · have hpos : 0 < limbs.length := length_pos_iff.mpr hnil
      calc limbBase ^ limbs.length
          = limbBase * limbBase ^ (limbs.length - 1) := by
            rw [← Nat.pow_succ', succ_eq_add_one, Nat.sub_add_cancel hpos]
        _ ≤ limbBase * value limbs := Nat.mul_le_mul_left _ (ih htight hnil)
        _ ≤ limb + limbBase * value limbs := Nat.le_add_left _ _

theorem value_lt_of_length_lt (ha : Fit as) (hb : Tight bs) (hlen : as.length < bs.length) :
    value as < value bs := by
  have hne : bs ≠ [] := by
    rintro rfl
    simp at hlen
  calc value as < limbBase ^ as.length := value_lt ha
    _ ≤ limbBase ^ (bs.length - 1) := Nat.pow_le_pow_right (by decide) (by omega)
    _ ≤ value bs := le_value_of_tight hb hne

/-! ## Bits -/

theorem testBit_value (h : Fit limbs) (i : Nat) :
    (value limbs).testBit i = (limbs.getD (i / 32) 0).testBit (i % 32) := by
  induction limbs generalizing i with
  | nil => simp [value_nil]
  | cons limb limbs ih =>
    obtain ⟨hlt, h'⟩ := Limbs.fit_cons.mp h
    rw [value_cons, Nat.add_comm, limbBase, testBit_two_pow_mul_add _ hlt]
    by_cases hi : i < 32
    · rw [if_pos hi, div_eq_of_lt hi, mod_eq_of_lt hi, getD_cons_zero]
    · have hdiv : i / 32 = (i - 32) / 32 + 1 := by omega
      have hmod : i % 32 = (i - 32) % 32 := by omega
      rw [if_neg hi, ih h', hdiv, hmod, getD_cons_succ]

theorem lt_two_pow_bitWidth (n : Nat) : n < 2 ^ bitWidth n := by
  rw [bitWidth]
  split
  · rename_i h
    rw [h]
    decide
  · exact lt_log2_self

theorem value_lt_of_getLast? (h : Fit limbs) {top : Nat} (htop : limbs.getLast? = some top) :
    value limbs < 2 ^ ((limbs.length - 1) * 32 + bitWidth top) := by
  induction limbs with
  | nil => simp at htop
  | cons limb limbs ih =>
    obtain ⟨hlt, h'⟩ := Limbs.fit_cons.mp h
    rw [value_cons]
    cases limbs with
    | nil =>
      cases htop
      simpa [value_nil] using lt_two_pow_bitWidth limb
    | cons next rest =>
      rw [getLast?_cons_cons] at htop
      have hrest := ih h' htop
      have hexp : (limb :: next :: rest).length - 1 = (next :: rest).length - 1 + 1 := by simp
      rw [hexp, Nat.add_mul, Nat.one_mul, Nat.add_right_comm, Nat.add_comm _ 32, Nat.pow_add]
      calc limb + limbBase * value (next :: rest)
          < limbBase * (value (next :: rest) + 1) := by
            rw [mul_succ]
            omega
        _ ≤ 2 ^ 32 * 2 ^ (((next :: rest).length - 1) * 32 + bitWidth top) :=
            Nat.mul_le_mul_left _ hrest

/-! ## The operations -/

/-- The number a `BigNat` stands for. -/
def toNat (v : BigNat) : Nat := value v.limbs

@[simp] theorem toNat_zero : toNat .zero = 0 := rfl

@[simp] theorem toNat_one : toNat .one = 1 := rfl

/-- With limbs in range and none wasted the number determines them. -/
theorem toNat_injective {v w : BigNat} (h : toNat v = toNat w) : v = w := by
  have hdigits : ∀ v : BigNat, Nat.digits limbBase (toNat v) = v.limbs := by
    intro v
    refine digits_ofDigits limbBase (by decide) v.limbs v.fit fun hne hzero => v.tight ?_
    rw [getLast?_eq_some_getLast hne, hzero]
  have hlimbs : v.limbs = w.limbs := by rw [← hdigits v, ← hdigits w, h]
  cases v
  cases w
  subst hlimbs
  rfl

theorem isZero_iff (v : BigNat) : v.isZero = true ↔ toNat v = 0 := by
  rw [BigNat.isZero, List.isEmpty_iff, toNat]
  constructor
  · intro h
    rw [h]
    rfl
  · intro h
    by_contra hne
    have := le_value_of_tight v.tight hne
    have hpos : 0 < limbBase ^ (v.limbs.length - 1) := Nat.pow_pos (by decide)
    omega

@[simp] theorem toNat_addAssign (v other : BigNat) :
    toNat (v.addAssign other) = toNat v + toNat other := value_add _ _

theorem cmp_eq (v other : BigNat) : v.cmp other = compare (toNat v) (toNat other) := by
  rw [BigNat.cmp, Limbs.cmp, toNat, toNat]
  rcases Nat.lt_trichotomy v.limbs.length other.limbs.length with h | h | h
  · rw [compare_lt_iff_lt.mpr h, Ordering.lt_then, eq_comm, compare_lt_iff_lt]
    exact value_lt_of_length_lt v.fit other.tight h
  · rw [compare_eq_iff_eq.mpr h, Ordering.eq_then]
    exact value_cmpTop v.fit other.fit h
  · rw [compare_gt_iff_gt.mpr h, Ordering.gt_then, eq_comm, compare_gt_iff_gt]
    exact value_lt_of_length_lt other.fit v.tight h

theorem cmp_ne_gt_iff (v other : BigNat) : v.cmp other ≠ .gt ↔ toNat v ≤ toNat other := by
  rw [cmp_eq, ne_eq, compare_gt_iff_gt]
  omega

theorem checkedSubAssign_eq {v other : BigNat} (h : toNat other ≤ toNat v) :
    ∃ w, v.checkedSubAssign other = some w ∧ toNat w = toNat v - toNat other := by
  have hlen : other.limbs.length ≤ v.limbs.length := by
    by_contra hgt
    have := value_lt_of_length_lt v.fit other.tight (Nat.lt_of_not_le hgt)
    rw [toNat, toNat] at h
    omega
  rw [BigNat.checkedSubAssign, if_neg (by rw [cmp_eq, compare_lt_iff_lt]; omega)]
  refine ⟨_, rfl, ?_⟩
  have hsub := value_subLoop v.fit other.fit (Nat.zero_le 1) hlen h
  rw [toNat, value_normalize]
  rw [toNat, toNat]
  omega

theorem toNat_of_checkedSubAssign {v other w : BigNat} (h : v.checkedSubAssign other = some w) :
    toNat v = toNat other + toNat w := by
  by_cases hle : toNat other ≤ toNat v
  · obtain ⟨w', hw, hvalue⟩ := checkedSubAssign_eq hle
    rw [h, Option.some.injEq] at hw
    rw [hw]
    omega
  · rw [BigNat.checkedSubAssign, if_pos (by rw [cmp_eq, compare_lt_iff_lt]; omega)] at h
    cases h

theorem toNat_mulU32Assign (v : BigNat) (factor : BitVec 32) :
    toNat (v.mulU32Assign factor) = toNat v * factor.toNat := by
  rw [BigNat.mulU32Assign]
  split
  · rename_i h
    rcases h with h | h
    · rw [h, toNat_zero, Nat.mul_zero]
    · rw [toNat_zero, toNat, h, value_nil, Nat.zero_mul]
  · rw [toNat, value_mulLoop, Nat.add_zero, toNat]

theorem toNat_divU32Assign (v : BigNat) {divisor : BitVec 32} (hd : 0 < divisor.toNat) :
    toNat (v.divU32Assign divisor).1 = toNat v / divisor.toNat := by
  rw [BigNat.divU32Assign, toNat, value_normalize, (value_divLoop hd v.limbs).1, toNat]

theorem bit_eq (v : BigNat) (i : Nat) : v.bit i = (toNat v).testBit i :=
  (testBit_value v.fit i).symm

theorem toNat_lt_of_bitLen_le {v : BigNat} {width : Nat} (h : v.bitLen ≤ width) :
    toNat v < 2 ^ width := by
  rw [BigNat.bitLen] at h
  split at h
  · rename_i hnil
    rw [toNat, getLast?_eq_none_iff.mp hnil, value_nil]
    exact Nat.two_pow_pos width
  · rename_i top htop
    exact Nat.lt_of_lt_of_le (value_lt_of_getLast? v.fit htop) (Nat.pow_le_pow_right (by decide) h)

theorem getD_append_zeros (limbs : List Nat) (k n : Nat) :
    (limbs ++ List.replicate k 0).getD n 0 = limbs.getD n 0 := by
  rcases Nat.lt_or_ge n limbs.length with h | h
  · exact getD_append _ _ _ _ h
  · rw [getD_append_right _ _ _ _ h, getD_eq_default _ _ h]
    rw [getD_eq_getElem?_getD, getElem?_replicate]
    split
    · rfl
    · rfl

theorem getD_setBit (limbs : List Nat) (i n : Nat) : (Limbs.setBit limbs i).getD n 0 =
    if i / 32 = n then limbs.getD n 0 ||| 2 ^ (i % 32) else limbs.getD n 0 := by
  rw [← getD_append_zeros limbs (i / 32 + 1 - limbs.length), Limbs.setBit,
    getD_eq_getElem?_getD, getD_eq_getElem?_getD, getElem?_modify]
  split
  · -- the resize has made room for the limb
    rename_i heq
    have hlt : n < (limbs ++ List.replicate (i / 32 + 1 - limbs.length) 0).length := by
      rw [length_append, length_replicate]
      omega
    rw [getElem?_eq_getElem hlt]
    rfl
  · rw [Option.map_eq_map, Option.map_id']

theorem toNat_setBit (v : BigNat) (i : Nat) : toNat (v.setBit i) = toNat v ||| 2 ^ i := by
  refine eq_of_testBit_eq fun j => ?_
  rw [testBit_or, testBit_two_pow, toNat, toNat, testBit_value (v.setBit i).fit,
    testBit_value v.fit]
  change ((Limbs.setBit v.limbs i).getD (j / 32) 0).testBit (j % 32) = _
  rw [getD_setBit]
  split
  · rename_i heq
    have hmod : i % 32 = j % 32 ↔ i = j := by omega
    rw [testBit_or, testBit_two_pow, decide_eq_decide.mpr hmod]
  · rename_i hne
    have hij : i ≠ j := by
      rintro rfl
      exact hne rfl
    rw [decide_eq_false hij, Bool.or_false]

/-! ## Combinations -/

/-- The product of the source, cut off after some factors: each quotient is exact. -/
theorem toNat_combinationCount_loop {base count : Nat} (hbase : base + count < 2 ^ 32) :
    toNat ((List.range' 1 count).foldl (fun value index =>
      ((value.mulU32Assign (BitVec.ofNat 32 (base + index))).divU32Assign
        (BitVec.ofNat 32 index)).1) .one) = (base + count).choose count := by
  induction count with
  | zero => simp
  | succ count ih =>
    have hfactor : (BitVec.ofNat 32 (base + (1 + count))).toNat = base + (1 + count) := by
      rw [BitVec.toNat_ofNat, mod_eq_of_lt (by omega)]
    have hdivisor : (BitVec.ofNat 32 (1 + count)).toNat = 1 + count := by
      rw [BitVec.toNat_ofNat, mod_eq_of_lt (by omega)]
    rw [range'_1_concat, foldl_append, foldl_cons, foldl_nil,
      toNat_divU32Assign _ (by rw [hdivisor]; omega), toNat_mulU32Assign, ih (by omega), hfactor,
      hdivisor]
    have hpascal := add_one_mul_choose_eq (base + count) count
    have hrw : (base + count).choose count * (base + (1 + count)) =
        (base + (count + 1)).choose (count + 1) * (1 + count) := by
      rw [Nat.mul_comm, Nat.add_comm 1 count]
      exact hpascal
    rw [hrw, Nat.mul_div_cancel _ (by omega)]

theorem toNat_combinationCount {total : Nat} (htotal : total < 2 ^ 32) (selected : Nat) :
    toNat (combinationCount total selected) = total.choose selected := by
  rw [combinationCount]
  split
  · rename_i h
    rw [toNat_zero, choose_eq_zero_of_lt h]
  · rename_i h
    have hle : selected ≤ total := Nat.le_of_not_gt h
    have hcount : min selected (total - selected) ≤ total := (min_le_left _ _).trans hle
    have hloop := toNat_combinationCount_loop (show
      total - min selected (total - selected) + min selected (total - selected) < 2 ^ 32 by omega)
    rw [Nat.sub_add_cancel hcount] at hloop
    dsimp only
    rw [hloop]
    rcases Nat.le_total selected (total - selected) with hmin | hmin
    · rw [min_eq_left hmin]
    · rw [min_eq_right hmin, choose_symm hle]

/-! ## Ranks -/

variable {positions : List Nat}

theorem toNat_combinationRank (hlt : ∀ p ∈ positions, p < 2 ^ 32) :
    toNat (combinationRank positions) = combinadic positions := by
  induction positions using List.reverseRecOn with
  | nil => rfl
  | append_singleton positions last ih =>
    have hlast : last < 2 ^ 32 := hlt last (by simp)
    rw [combinationRank, zipIdx_append, foldl_append, zipIdx_singleton,
      foldl_cons, foldl_nil, toNat_addAssign, toNat_combinationCount hlast,
      combinadic_append_singleton, Nat.zero_add]
    congr 1
    exact ih fun p hp => hlt p (mem_append_left _ hp)

variable {rank : BigNat}

/-- The binary search ends on the position that separates what fits from what does not. While it
    runs, that position lies between the bounds, or it has just been passed and is remembered. -/
theorem searchPosition_eq {index last : Nat}
    (hfits : ∀ c, c < 2 ^ 32 → (c.choose index ≤ toNat rank ↔ c ≤ last)) :
    ∀ (fuel low high position : Nat), high + 1 - low ≤ fuel → high < 2 ^ 32 → low ≤ last + 1 →
      last ≤ high → (last < low → position = last) →
      searchPosition index rank fuel low high position = last := by
  intro fuel
  induction fuel with
  | zero =>
    intro low high position hfuel _ _ hhigh hpassed
    exact hpassed (by omega)
  | succ fuel ih =>
    intro low high position hfuel hbound hlow hhigh hpassed
    rw [searchPosition]
    by_cases hle : low ≤ high
    · rw [if_pos hle]
      dsimp only
      have hcandidate : low + (high - low) / 2 ≤ high := by omega
      generalize hc : low + (high - low) / 2 = candidate at hcandidate
      have hlt : candidate < 2 ^ 32 := by omega
      rw [ite_cond_congr (by rw [cmp_ne_gt_iff, toNat_combinationCount hlt, hfits _ hlt])]
      split
      · rename_i hfit
        exact ih _ _ _ (by omega) hbound (by omega) hhigh (by omega)
      · rename_i hnot
        rw [if_neg (by omega)]
        exact ih _ _ _ (by omega) (by omega) hlow (by omega) hpassed
    · rw [if_neg hle]
      exact hpassed (by omega)

theorem unrankLoop_eq (hsorted : positions.Pairwise (· < ·)) :
    ∀ (upper : Nat) (rank : BigNat) (found : List Nat), upper < 2 ^ 32 →
      (∀ p ∈ positions, p ≤ upper) → toNat rank = combinadic positions →
      unrankLoop positions.length upper rank found = some (positions ++ found) := by
  induction positions using List.reverseRecOn with
  | nil =>
    intro upper rank found _ _ hrank
    rw [length_nil, unrankLoop, if_pos ((isZero_iff rank).mpr hrank)]
    rfl
  | append_singleton positions last ih =>
    intro upper rank found hupper hle hrank
    obtain ⟨hsorted', hbelow⟩ := sortedLT_append_singleton.mp hsorted
    have hlast : last ≤ upper := hle last (by simp)
    have hindex := length_le_of_pairwise_lt hsorted
    have hposition : searchPosition (positions.length + 1) rank (upper + 1) positions.length upper
        positions.length = last :=
      searchPosition_eq (fun c _ => by rw [hrank]; exact choose_le_combinadic_iff hsorted) _ _ _ _
        (by omega) hupper (by omega) hlast (by omega)
    have hcount : toNat (combinationCount last (positions.length + 1)) =
        last.choose (positions.length + 1) := toNat_combinationCount (by omega) _
    rw [combinadic_append_singleton] at hrank
    obtain ⟨rest, hsub, hrest⟩ := checkedSubAssign_eq
      (show toNat (combinationCount last (positions.length + 1)) ≤ toNat rank by omega)
    rw [length_append, length_singleton, unrankLoop, hposition, hsub, bind_eq_bind, bind_some]
    have hrest' : toNat rest = combinadic positions := by omega
    split
    · rename_i hpos
      rw [if_neg (by omega), ih hsorted' (last - 1) rest (last :: found) (by omega)
        (fun p hp => le_sub_one_of_lt (hbelow p hp)) hrest', append_assoc]
      rfl
    · rename_i hzero
      obtain rfl : positions = [] := length_eq_zero_iff.mp (by omega)
      rw [length_nil, unrankLoop, if_pos ((isZero_iff rest).mpr hrest')]
      rfl

theorem combinationUnrank_rank {total : Nat} (htotal : total < 2 ^ 32)
    (hsorted : positions.Pairwise (· < ·)) (hlt : ∀ p ∈ positions, p < total)
    (hrank : toNat rank = toNat (combinationRank positions)) :
    combinationUnrank total positions.length rank = some positions := by
  have hlength : positions.length ≤ total := by
    induction positions using List.reverseRecOn with
    | nil => exact Nat.zero_le _
    | append_singleton positions last _ =>
      have := length_le_of_pairwise_lt hsorted
      have hlast : last < total := hlt last (by simp)
      rw [length_append, length_singleton]
      omega
  rw [toNat_combinationRank fun p hp => (hlt p hp).trans htotal] at hrank
  rw [combinationUnrank, if_neg (by omega)]
  split
  · rename_i hzero
    obtain rfl := length_eq_zero_iff.mp hzero
    rw [if_pos ((isZero_iff rank).mpr hrank)]
  · rw [unrankLoop_eq hsorted (total - 1) rank [] (by omega)
      (fun p hp => le_sub_one_of_lt (hlt p hp)) hrank, append_nil]

theorem toNat_combinationRank_lt {total : Nat} (htotal : total < 2 ^ 32)
    (hsorted : positions.Pairwise (· < ·)) (hlt : ∀ p ∈ positions, p < total) :
    toNat (combinationRank positions) < toNat (combinationCount total positions.length) := by
  rw [toNat_combinationRank fun p hp => (hlt p hp).trans htotal, toNat_combinationCount htotal]
  exact combinadic_lt hsorted hlt

/-- Every rank below the number of combinations is the rank of one, which is found. -/
theorem combinationUnrank_of_lt {total count : Nat} (htotal : total < 2 ^ 32)
    (h : toNat rank < toNat (combinationCount total count)) : ∃ positions,
      combinationUnrank total count rank = some positions ∧ positions.Pairwise (· < ·) ∧
        (∀ p ∈ positions, p < total) ∧ combinationRank positions = rank := by
  rw [toNat_combinationCount htotal] at h
  obtain ⟨positions, hsorted, rfl, hlt, hrank⟩ := exists_combinadic h
  have hrank : toNat (combinationRank positions) = toNat rank := by
    rw [toNat_combinationRank fun p hp => (hlt p hp).trans htotal, hrank]
  exact ⟨positions, combinationUnrank_rank htotal hsorted hlt hrank.symm, hsorted, hlt,
    toNat_injective hrank⟩

/-- Wherever the binary search stops, it has not left its bounds. -/
theorem searchPosition_mem {index bottom top : Nat} : ∀ {fuel low high position : Nat},
    bottom ≤ low → high ≤ top → bottom ≤ position ∧ position ≤ top →
      bottom ≤ searchPosition index rank fuel low high position ∧
        searchPosition index rank fuel low high position ≤ top := by
  intro fuel
  induction fuel with
  | zero => exact fun _ _ hposition => hposition
  | succ fuel ih =>
    intro low high position hlow hhigh hposition
    rw [searchPosition]
    split
    · dsimp only
      split
      · exact ih (by omega) hhigh (by omega)
      · split
        · exact hposition
        · exact ih hlow (by omega) hposition
    · exact hposition

/-- The loop takes the counts of the positions it finds off the rank until nothing is left, so it
    succeeds only below the number of combinations. -/
theorem lt_choose_of_unrankLoop {result : List Nat} : ∀ {index upper : Nat} {rank : BigNat}
    {found : List Nat}, index ≤ upper + 1 → upper < 2 ^ 32 →
      unrankLoop index upper rank found = some result → toNat rank < (upper + 1).choose index := by
  intro index
  induction index with
  | zero =>
    intro upper rank found _ _ h
    rw [unrankLoop] at h
    split at h
    · rename_i hzero
      rw [(isZero_iff rank).mp hzero, choose_zero_right]
      exact Nat.one_pos
    · cases h
  | succ index ih =>
    intro upper rank found hindex hupper h
    rw [unrankLoop] at h
    have hlast : index ≤ searchPosition (index + 1) rank (upper + 1) index upper index ∧
        searchPosition (index + 1) rank (upper + 1) index upper index ≤ upper :=
      searchPosition_mem (Nat.le_refl index) (Nat.le_refl upper) ⟨Nat.le_refl index, by omega⟩
    generalize searchPosition (index + 1) rank (upper + 1) index upper index = last at h hlast
    obtain ⟨rest, hsub, h⟩ := Option.bind_eq_some_iff.mp h
    have hrest : toNat rest < last.choose index := by
      split at h
      · split at h
        · cases h
        · rename_i hne
          rw [← Nat.sub_add_cancel (Nat.pos_of_ne_zero hne)]
          exact ih (by omega) (by omega) h
      · obtain rfl : index = 0 := by omega
        have hzero := ih (by omega) hupper h
        rwa [choose_zero_right] at hzero ⊢
    calc toNat rank = last.choose (index + 1) + toNat rest := by
          rw [toNat_of_checkedSubAssign hsub, toNat_combinationCount (by omega)]
      _ < (last + 1).choose (index + 1) := by
          rw [choose_succ_succ']
          omega
      _ ≤ (upper + 1).choose (index + 1) := choose_le_choose _ (by omega)

/-- Ranks number the combinations of `k` positions out of `n` from zero on, and unranking is the
    inverse: past the last of them there is nothing to find. -/
theorem combination_ranks {n k : Nat} (hk : k ≤ n) (hn : n < 2 ^ 32) :
    toNat (combinationCount n k) = n.choose k ∧
    (∀ positions : List Nat, positions.Pairwise (· < ·) → positions.length = k →
      (∀ p ∈ positions, p < n) → (combinationRank positions).cmp (combinationCount n k) = .lt ∧
        combinationUnrank n k (combinationRank positions) = some positions) ∧
    ∀ rank : BigNat, (rank.cmp (combinationCount n k) = .lt → ∃ positions,
        combinationUnrank n k rank = some positions ∧ positions.Pairwise (· < ·) ∧
        combinationRank positions = rank) ∧
      (rank.cmp (combinationCount n k) ≠ .lt → combinationUnrank n k rank = none) := by
  have hcount := toNat_combinationCount hn k
  refine ⟨hcount, ?_, fun rank => ⟨fun h => ?_, fun h => ?_⟩⟩
  · rintro positions hsorted rfl hlt
    rw [cmp_eq, compare_lt_iff_lt]
    exact ⟨toNat_combinationRank_lt hn hsorted hlt, combinationUnrank_rank hn hsorted hlt rfl⟩
  · rw [cmp_eq, compare_lt_iff_lt] at h
    obtain ⟨positions, hunrank, hsorted, -, hrank⟩ := combinationUnrank_of_lt hn h
    exact ⟨positions, hunrank, hsorted, hrank⟩
  · rw [cmp_eq, ne_eq, compare_lt_iff_lt, hcount] at h
    rw [combinationUnrank, if_neg (by omega)]
    split
    · rename_i hzero
      rw [hzero, choose_zero_right] at h
      rw [if_neg (by rw [isZero_iff]; omega)]
    · refine Option.eq_none_iff_forall_ne_some.mpr fun result hresult => h ?_
      have hlt := lt_choose_of_unrankLoop (by omega) (by omega) hresult
      rwa [Nat.sub_add_cancel (by omega)] at hlt

theorem combination_ranks_pair : combinationUnrank 5 2 (combinationRank [1, 3]) = some [1, 3] :=
  ((combination_ranks (by decide) (by decide)).2.1 [1, 3] (by decide) rfl (by decide)).2

end Clearra.Proof.Ctk3
