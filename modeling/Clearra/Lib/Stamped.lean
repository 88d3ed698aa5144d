import Mathlib

/-!
# Generation-stamped tables

A table that is emptied by counting. Each entry carries the generation it was written in, an entry
of another generation is vacant, and emptying the table is adding one to the generation — except
when the counter wraps, where the stamps are really cleared and counting restarts at one. The
wrap is why this needs an argument at all: `get?_fresh` holds because no stamp is ever ahead of
the counter, which the structure carries.
-/

namespace Clearra.Lib

open List

/-- Entries and their stamps; the counter is a `u32`. -/
structure Stamped (α : Type) where
  values : List α
  stamps : List Nat
  generation : Nat
  length_eq : values.length = stamps.length
  stamps_le : ∀ s ∈ stamps, s ≤ generation
  generation_lt : generation < 2 ^ 32

namespace Stamped

variable {α : Type}

def empty : Stamped α := ⟨[], [], 0, rfl, by simp, by decide⟩

/-- Grow to `n` entries. -/
def reserve (t : Stamped α) (n : Nat) (vacant : α) : Stamped α where
  values := t.values ++ List.replicate (n - t.values.length) vacant
  stamps := t.stamps ++ List.replicate (n - t.values.length) 0
  generation := t.generation
  length_eq := by simp [t.length_eq]
  stamps_le := by
    intro s hs
    rcases mem_append.mp hs with hs | hs
    · exact t.stamps_le s hs
    · rw [eq_of_mem_replicate hs]
      exact Nat.zero_le _
  generation_lt := t.generation_lt

/-- `generation.wrapping_add(1)`, clearing the stamps when that is zero. -/
def advance (t : Stamped α) : Stamped α :=
  if h : t.generation + 1 < 2 ^ 32 then
    { t with
      generation := t.generation + 1
      stamps_le := fun s hs => (t.stamps_le s hs).trans (Nat.le_succ _)
      generation_lt := h }
  else
    { t with
      stamps := t.stamps.map fun _ => 0
      generation := 1
      length_eq := by rw [length_map, t.length_eq]
      stamps_le := by
        intro s hs
        obtain ⟨_, -, rfl⟩ := mem_map.mp hs
        exact Nat.zero_le _
      generation_lt := by decide }

/-- A table of at least `n` vacant entries. -/
def fresh (t : Stamped α) (n : Nat) (vacant : α) : Stamped α := (t.reserve n vacant).advance

def get? (t : Stamped α) (i : Nat) : Option α :=
  if t.stamps[i]? = some t.generation then t.values[i]? else none

def set (t : Stamped α) (i : Nat) (a : α) : Stamped α where
  values := t.values.set i a
  stamps := t.stamps.set i t.generation
  generation := t.generation
  length_eq := by simp [t.length_eq]
  stamps_le := by
    intro s hs
    rcases mem_or_eq_of_mem_set hs with hs | rfl
    · exact t.stamps_le s hs
    · exact Nat.le_refl _
  generation_lt := t.generation_lt

def size (t : Stamped α) : Nat := t.values.length

theorem get?_advance (t : Stamped α) (i : Nat) : t.advance.get? i = none := by
  unfold advance
  split
  · refine if_neg fun h => ?_
    have := t.stamps_le _ (mem_of_getElem? h)
    dsimp only at this
    omega
  · refine if_neg fun h => ?_
    obtain ⟨_, -, hzero⟩ := mem_map.mp (mem_of_getElem? h)
    simp at hzero

@[simp] theorem get?_fresh (t : Stamped α) (n i : Nat) (vacant : α) :
    (t.fresh n vacant).get? i = none :=
  get?_advance _ i

theorem le_size_fresh (t : Stamped α) (n : Nat) (vacant : α) : n ≤ (t.fresh n vacant).size := by
  have hadvance : ∀ u : Stamped α, u.advance.size = u.size := by
    intro u
    unfold advance
    split
    · rfl
    · rfl
  rw [fresh, hadvance, size, reserve, length_append, length_replicate]
  omega

@[simp] theorem size_set (t : Stamped α) (i : Nat) (a : α) : (t.set i a).size = t.size :=
  length_set

theorem get?_set_self {t : Stamped α} {i : Nat} (h : i < t.size) (a : α) :
    (t.set i a).get? i = some a := by
  have hstamp : i < t.stamps.length := t.length_eq ▸ h
  rw [get?, set]
  dsimp only
  rw [getElem?_set_self hstamp, if_pos rfl, getElem?_set_self h]

theorem get?_set_ne {t : Stamped α} {i j : Nat} (h : i ≠ j) (a : α) :
    (t.set i a).get? j = t.get? j := by
  rw [get?, get?, set]
  dsimp only
  rw [getElem?_set_ne h, getElem?_set_ne h]

/-- What is found after a write was written now or found before. -/
theorem get?_set_cases {t : Stamped α} {i j : Nat} {a b : α} (h : (t.set i a).get? j = some b) :
    (j = i ∧ b = a) ∨ t.get? j = some b := by
  by_cases hij : i = j
  · subst hij
    by_cases hi : i < t.size
    · rw [get?_set_self hi] at h
      exact Or.inl ⟨rfl, (Option.some.inj h).symm⟩
    · -- out of range nothing is stored
      have hnone : (t.set i a).get? i = none := by
        rw [get?]
        split
        · exact getElem?_eq_none (by rw [set, length_set]; exact Nat.le_of_not_lt hi)
        · rfl
      rw [hnone] at h
      simp at h
  · rw [get?_set_ne hij] at h
    exact Or.inr h

end Stamped
end Clearra.Lib
