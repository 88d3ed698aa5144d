import Mathlib

/-!
# `sort_unstable(); dedup()` as one operation

Half of the vectors this code base hands across a module boundary are first sorted and then
have their adjacent repetitions removed. The pair is used for its *composite* meaning — a
strictly increasing list with the same members — and never for the intermediate list, so the
composite is what gets a name and a specification here.

`sort_unstable` leaves the order of equal elements open. Under a linear order equal elements
are identical, so there is nothing to leave open and any sort is *the* sort; insertion sort is
the one that is structurally recursive, hence the one a concrete run can be evaluated through.
-/

namespace Clearra.Lib

variable {α : Type} [LinearOrder α]

/-- `Vec::sort_unstable` followed by `Vec::dedup`. -/
def sortDedup (l : List α) : List α :=
  (l.insertionSort (· ≤ ·)).destutter (· ≠ ·)

/-- On a sorted list removing *adjacent* repetitions removes all of them. -/
theorem sortDedup_eq_dedup (l : List α) :
    sortDedup l = (l.insertionSort (· ≤ ·)).dedup :=
  (List.pairwise_insertionSort (· ≤ ·) l).destutter_eq_dedup

@[simp] theorem mem_sortDedup {l : List α} {x : α} : x ∈ sortDedup l ↔ x ∈ l := by
  rw [sortDedup_eq_dedup, List.mem_dedup, List.mem_insertionSort]

theorem nodup_sortDedup (l : List α) : (sortDedup l).Nodup := by
  rw [sortDedup_eq_dedup]
  exact List.nodup_dedup _

theorem pairwise_lt_sortDedup (l : List α) : (sortDedup l).Pairwise (· < ·) := by
  have hle : (sortDedup l).Pairwise (· ≤ ·) := by
    rw [sortDedup_eq_dedup]
    exact (List.pairwise_insertionSort (· ≤ ·) l).sublist (List.dedup_sublist _)
  have hne : (sortDedup l).Pairwise (· ≠ ·) := nodup_sortDedup l
  exact (hle.and hne).imp fun h => lt_of_le_of_ne h.1 h.2

/-- A strictly increasing list is determined by its members, so `sortDedup` is a canonical
form: two vectors with the same members leave it equal. -/
theorem eq_of_pairwise_lt_of_mem_iff {l m : List α} (hl : l.Pairwise (· < ·))
    (hm : m.Pairwise (· < ·)) (h : ∀ x, x ∈ l ↔ x ∈ m) : l = m := by
  have hperm : l.Perm m :=
    (List.perm_ext_iff_of_nodup (hl.imp ne_of_lt) (hm.imp ne_of_lt)).mpr h
  exact hperm.eq_of_pairwise (fun a b _ _ hab hba => absurd hba (lt_asymm hab)) hl hm

end Clearra.Lib
