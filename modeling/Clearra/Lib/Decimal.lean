import Mathlib.Data.Nat.Digits.Defs
import Mathlib.Data.List.Basic

/-!
# Decimal texts

The text of a number has digits only, and begins with `0` for the number zero alone.
-/

namespace Clearra.Lib

theorem toList_toString (n : Nat) : (toString n).toList = Nat.toDigits 10 n := by
  rw [Nat.toString_eq_ofList_toDigits, String.toList_ofList]

theorem all_isDigit_toDigits (n : Nat) : (Nat.toDigits 10 n).all Char.isDigit = true := by
  rw [List.all_eq_true]
  intro c hc
  exact Nat.isDigit_of_mem_toDigits (by omega) (by omega) hc

theorem digitChar_ne_zero : ∀ n < 10, n ≠ 0 → Nat.digitChar n ≠ '0' := by decide

theorem head_toDigits {n : Nat} (h : n ≠ 0) : (Nat.toDigits 10 n).head? ≠ some '0' := by
  induction n using Nat.strong_induction_on with
  | _ n ih =>
    rw [Nat.toDigits_eq_if (by omega)]
    split
    case isTrue hlt => simpa using digitChar_ne_zero n hlt h
    case isFalse hge =>
      have hdiv := ih (n / 10) (by omega) (by omega)
      rw [List.head?_append]
      cases hd : (Nat.toDigits 10 (n / 10)).head? with
      | none => exact absurd (List.head?_eq_none_iff.1 hd) Nat.toDigits_ne_nil
      | some c => rwa [hd] at hdiv

end Clearra.Lib
