import Clearra.Tablebase.BagReveal
import Mathlib.Tactic

/-!
# Fractions in lowest terms

`multiply` cancels crosswise before it multiplies, `checked_add` reduces what it has added. Both keep
fractions in lowest terms and compute exactly what they say, so two results are equal exactly when
their values are.
-/

namespace Clearra.Proof.Tablebase

open Clearra.Tablebase Nat Option

/-- In lowest terms. -/
structure Canonical (p : Pc4ExactProbability) : Prop where
  denominator_pos : 0 < p.denominator
  coprime : Nat.Coprime p.numerator p.denominator

/-- The number a fraction stands for. -/
def value (p : Pc4ExactProbability) : ℚ := p.numerator / p.denominator

theorem canonical_zero : Canonical .zero := ⟨Nat.one_pos, coprime_one_right 0⟩

theorem canonical_one : Canonical .one := ⟨Nat.one_pos, coprime_one_right 1⟩

theorem canonical_uniform {count : Nat} (h : 0 < count) : Canonical (.uniform count) :=
  ⟨h, coprime_one_left count⟩

theorem value_zero : value .zero = 0 := by simp [value, Pc4ExactProbability.zero]

theorem value_one : value .one = 1 := by simp [value, Pc4ExactProbability.one]

theorem value_uniform (count : Nat) : value (.uniform count) = 1 / count := by
  simp [value, Pc4ExactProbability.uniform]

theorem canonical_ext {p q : Pc4ExactProbability} (hp : Canonical p) (hq : Canonical q)
    (h : value p = value q) : p = q := by
  have hp0 : (p.denominator : ℚ) ≠ 0 := cast_ne_zero.mpr hp.denominator_pos.ne'
  have hq0 : (q.denominator : ℚ) ≠ 0 := cast_ne_zero.mpr hq.denominator_pos.ne'
  rw [value, value, div_eq_div_iff hp0 hq0] at h
  have hcross : p.numerator * q.denominator = q.numerator * p.denominator := by exact_mod_cast h
  have hpq : p.denominator ∣ q.denominator :=
    hp.coprime.symm.dvd_of_dvd_mul_left (hcross ▸ Dvd.intro_left _ rfl)
  have hqp : q.denominator ∣ p.denominator :=
    hq.coprime.symm.dvd_of_dvd_mul_left (hcross.symm ▸ Dvd.intro_left _ rfl)
  have hden : p.denominator = q.denominator := Nat.dvd_antisymm hpq hqp
  rw [hden] at hcross
  have hnum := eq_of_mul_eq_mul_right hq.denominator_pos hcross
  cases p
  cases q
  simp_all

theorem checkedMul128_eq_some {a b c : Nat} (h : checkedMul128 a b = some c) : c = a * b := by
  rw [checkedMul128] at h
  split at h
  · exact (Option.some.inj h).symm
  · simp at h

theorem checkedAdd128_eq_some {a b c : Nat} (h : checkedAdd128 a b = some c) : c = a + b := by
  rw [checkedAdd128] at h
  split at h
  · exact (Option.some.inj h).symm
  · simp at h

/-- Dividing both by their greatest common divisor gives lowest terms of the same number. -/
theorem reduce_spec {a b : Nat} (hb : 0 < b) :
    Canonical ⟨a / Nat.gcd a b, b / Nat.gcd a b⟩ ∧
      value ⟨a / Nat.gcd a b, b / Nat.gcd a b⟩ = a / b := by
  have hgcd : 0 < Nat.gcd a b := Nat.gcd_pos_of_pos_right a hb
  refine ⟨⟨Nat.div_pos (Nat.le_of_dvd hb (Nat.gcd_dvd_right a b)) hgcd,
    Nat.coprime_div_gcd_div_gcd hgcd⟩, ?_⟩
  have hne : (Nat.gcd a b : ℚ) ≠ 0 := Nat.cast_ne_zero.mpr hgcd.ne'
  rw [value, Nat.cast_div (Nat.gcd_dvd_left a b) hne, Nat.cast_div (Nat.gcd_dvd_right a b) hne,
    div_div_div_cancel_right₀ hne]

theorem checkedAdd_spec {p q r : Pc4ExactProbability} (hp : Canonical p) (hq : Canonical q)
    (h : p.checkedAdd q = some r) : Canonical r ∧ value r = value p + value q := by
  simp only [Pc4ExactProbability.checkedAdd, bind, Option.bind_eq_some_iff, pure,
    Option.some.injEq] at h
  obtain ⟨left, hleft, right, hright, numerator, hnumerator, denominator, hdenominator, rfl⟩ := h
  obtain rfl := checkedMul128_eq_some hleft
  obtain rfl := checkedMul128_eq_some hright
  obtain rfl := checkedAdd128_eq_some hnumerator
  obtain rfl := checkedMul128_eq_some hdenominator
  have hgcd : 0 < Nat.gcd p.denominator q.denominator :=
    gcd_pos_of_pos_left _ hp.denominator_pos
  have hpos : 0 < p.denominator * (q.denominator / Nat.gcd p.denominator q.denominator) :=
    Nat.mul_pos hp.denominator_pos
      (Nat.div_pos (Nat.le_of_dvd hq.denominator_pos (Nat.gcd_dvd_right _ _)) hgcd)
  obtain ⟨hcanonical, hvalue⟩ := reduce_spec (a := p.numerator *
    (q.denominator / Nat.gcd p.denominator q.denominator) + q.numerator *
    (p.denominator / Nat.gcd p.denominator q.denominator)) hpos
  refine ⟨hcanonical, hvalue.trans ?_⟩
  have hne : (Nat.gcd p.denominator q.denominator : ℚ) ≠ 0 := cast_ne_zero.mpr hgcd.ne'
  have hp0 : (p.denominator : ℚ) ≠ 0 := cast_ne_zero.mpr hp.denominator_pos.ne'
  have hq0 : (q.denominator : ℚ) ≠ 0 := Nat.cast_ne_zero.mpr hq.denominator_pos.ne'
  push_cast [Nat.cast_div (Nat.gcd_dvd_left _ _) hne, Nat.cast_div (Nat.gcd_dvd_right _ _) hne]
  rw [value, value]
  field_simp

theorem multiply_spec {p r : Pc4ExactProbability} {numerator denominator : Nat} (hp : Canonical p)
    (hpos : 0 < denominator) (h : p.multiply numerator denominator = some r) :
    Canonical r ∧ value r = value p * (numerator / denominator) := by
  simp only [Pc4ExactProbability.multiply, bind, bind_eq_some_iff, pure, Option.some.injEq] at h
  obtain ⟨hfactor, hvalue⟩ := reduce_spec (a := numerator) hpos
  -- from here on the factor is in lowest terms, `n / d`
  revert h hfactor hvalue
  generalize numerator / Nat.gcd numerator denominator = n
  generalize denominator / Nat.gcd numerator denominator = d
  intro h hfactor hvalue
  obtain ⟨top, htop, bottom, hbottom, rfl⟩ := h
  obtain rfl := checkedMul128_eq_some htop
  obtain rfl := checkedMul128_eq_some hbottom
  obtain ⟨hd, hnd⟩ := hfactor
  obtain ⟨hb, hab⟩ := hp
  dsimp only at hd hnd
  have hleft : 0 < Nat.gcd p.numerator d := gcd_pos_of_pos_right _ hd
  have hright : 0 < Nat.gcd n p.denominator := gcd_pos_of_pos_right _ hb
  refine ⟨⟨?_, ?_⟩, ?_⟩
  · exact Nat.mul_pos (Nat.div_pos (Nat.le_of_dvd hb (Nat.gcd_dvd_right _ _)) hright)
      (Nat.div_pos (Nat.le_of_dvd hd (Nat.gcd_dvd_right _ _)) hleft)
  · refine Nat.Coprime.mul_left (Nat.Coprime.mul_right ?_ ?_) (Nat.Coprime.mul_right ?_ ?_)
    · exact (hab.coprime_div_left (Nat.gcd_dvd_left _ _)).coprime_div_right (Nat.gcd_dvd_right _ _)
    · exact Nat.coprime_div_gcd_div_gcd hleft
    · exact Nat.coprime_div_gcd_div_gcd hright
    · exact (hnd.coprime_div_left (Nat.gcd_dvd_left _ _)).coprime_div_right (Nat.gcd_dvd_right _ _)
  · have hleft0 : (Nat.gcd p.numerator d : ℚ) ≠ 0 := Nat.cast_ne_zero.mpr hleft.ne'
    have hright0 : (Nat.gcd n p.denominator : ℚ) ≠ 0 := Nat.cast_ne_zero.mpr hright.ne'
    have hb0 : (p.denominator : ℚ) ≠ 0 := cast_ne_zero.mpr hb.ne'
    have hd0 : (d : ℚ) ≠ 0 := cast_ne_zero.mpr hd.ne'
    rw [← hvalue, value, value, value]
    push_cast [Nat.cast_div (Nat.gcd_dvd_left p.numerator d) hleft0,
      Nat.cast_div (Nat.gcd_dvd_right p.numerator d) hleft0,
      Nat.cast_div (Nat.gcd_dvd_left n p.denominator) hright0,
      Nat.cast_div (Nat.gcd_dvd_right n p.denominator) hright0]
    field_simp

end Clearra.Proof.Tablebase
