import Clearra.Lib.Paths

/-!
# Draws without replacement

`arrangements l n` lists the ways to draw `n` elements of `l` one after another, in the order of `l`.
A plan is a list of such draws; `Spells` says what can come out of it, and `words` lists it. A member of
either list is found by dividing its index: all branches have the same size.
-/

namespace Clearra.Lib

open List

variable {α β : Type}

/-! ## Branches of one size -/

theorem length_flatMap_of_forall {f : α → List β} {l : List α} {size : Nat}
    (h : ∀ a ∈ l, (f a).length = size) : (l.flatMap f).length = l.length * size := by
  rw [length_flatMap, map_congr_left h, map_const', sum_replicate_nat]

theorem flatMap_filter (p : α → Bool) (f : α → List β) (l : List α) :
    (l.filter p).flatMap f = l.flatMap fun a => if p a then f a else [] := by
  induction l with
  | nil => rfl
  | cons a l ih => cases h : p a <;> simp [h, ih]

theorem getElem?_flatMap_of_forall {f : α → List β} {l : List α} {size : Nat} (hsize : 0 < size)
    (h : ∀ a ∈ l, (f a).length = size) (i : Nat) :
    (l.flatMap f)[i]? = (l[i / size]?).bind fun a => (f a)[i % size]? := by
  induction l generalizing i with
  | nil => simp
  | cons a l ih =>
    obtain ⟨hhead, htail⟩ := forall_mem_cons.mp h
    rw [getElem?_flatMap_cons, hhead]
    split
    · rename_i hlt
      rw [Nat.div_eq_of_lt hlt, Nat.mod_eq_of_lt hlt, getElem?_cons_zero, Option.bind_some]
    · rename_i hge
      obtain ⟨k, rfl⟩ := Nat.exists_eq_add_of_le (Nat.le_of_not_lt hge)
      rw [Nat.add_sub_cancel_left, ih htail, Nat.add_div_left k hsize, Nat.add_mod_left,
        getElem?_cons_succ]

/-! ## Plans -/

/-- What can be drawn: so many elements out of each list, list after list. -/
def Spells : List (List α × Nat) → List α → Prop
  | [], w => w = []
  | (l, n) :: plan, w => ∃ v u, w = v ++ u ∧ v.length = n ∧ v.Subperm l ∧ Spells plan u

variable {l l' w : List α} {n : Nat} {plan : List (List α × Nat)}

@[simp] theorem spells_zero : Spells ((l, 0) :: plan) w ↔ Spells plan w := by
  constructor
  · rintro ⟨v, u, rfl, hlength, -, hu⟩
    rwa [length_eq_zero_iff.mp hlength]
  · intro h
    exact ⟨[], w, rfl, rfl, nil_subperm, h⟩

theorem length_of_spells (h : Spells plan w) : w.length = (plan.map Prod.snd).sum := by
  induction plan generalizing w with
  | nil => exact congrArg List.length h
  | cons d plan ih =>
    obtain ⟨v, u, rfl, hlength, -, hu⟩ := h
    rw [length_append, hlength, ih hu, map_cons, sum_cons]

/-- A plan that draws no more than there is can be carried out. -/
theorem exists_spells (h : ∀ d ∈ plan, d.2 ≤ d.1.length) : ∃ w, Spells plan w := by
  induction plan with
  | nil => exact ⟨[], rfl⟩
  | cons d plan ih =>
    obtain ⟨hhead, htail⟩ := forall_mem_cons.mp h
    obtain ⟨u, hu⟩ := ih htail
    exact ⟨d.1.take d.2 ++ u, d.1.take d.2, u, rfl, length_take_of_le hhead,
      (take_sublist d.2 d.1).subperm, hu⟩

variable [DecidableEq α]

/-! ## One draw -/

def arrangements : List α → Nat → List (List α)
  | _, 0 => [[]]
  | l, n + 1 => l.flatMap fun a => (arrangements (l.erase a) n).map (a :: ·)

theorem cons_subperm_iff {a : α} {v l : List α} :
    (a :: v).Subperm l ↔ a ∈ l ∧ v.Subperm (l.erase a) := by
  constructor
  · intro h
    refine ⟨h.subset mem_cons_self, ?_⟩
    have herase := h.erase a
    rwa [erase_cons_head] at herase
  · rintro ⟨hmem, h⟩
    rw [(perm_cons_erase hmem).subperm_left]
    exact (subperm_cons a).mpr h

theorem mem_arrangements {l v : List α} {n : Nat} :
    v ∈ arrangements l n ↔ v.length = n ∧ v.Subperm l := by
  induction n generalizing l v with
  | zero =>
    rw [arrangements, mem_singleton, length_eq_zero_iff]
    constructor
    · rintro rfl
      exact ⟨rfl, nil_subperm⟩
    · exact And.left
  | succ n ih =>
    simp only [arrangements, mem_flatMap, mem_map, ih]
    constructor
    · rintro ⟨a, ha, v, ⟨hlength, hv⟩, rfl⟩
      exact ⟨congrArg Nat.succ hlength, cons_subperm_iff.mpr ⟨ha, hv⟩⟩
    · rintro ⟨hlength, hv⟩
      cases v with
      | nil => simp at hlength
      | cons a v =>
        obtain ⟨ha, hv⟩ := cons_subperm_iff.mp hv
        exact ⟨a, ha, v, ⟨Nat.succ.inj hlength, hv⟩, rfl⟩

theorem length_arrangements (l : List α) (n : Nat) :
    (arrangements l n).length = l.length.descFactorial n := by
  induction n generalizing l with
  | zero => rfl
  | succ n ih =>
    have hbranch : ∀ a ∈ l, ((arrangements (l.erase a) n).map (a :: ·)).length =
        (l.length - 1).descFactorial n := by
      intro a ha
      rw [length_map, ih, length_erase_of_mem ha]
    rw [arrangements, length_flatMap_of_forall hbranch]
    cases l with
    | nil => simp
    | cons a l => exact (Nat.succ_descFactorial_succ l.length n).symm

theorem spells_succ_cons {a : α} :
    Spells ((l, n + 1) :: plan) (a :: w) ↔ a ∈ l ∧ Spells ((l.erase a, n) :: plan) w := by
  constructor
  · rintro ⟨v, u, hw, hlength, hv, hu⟩
    cases v with
    | nil => simp at hlength
    | cons b v =>
      rw [cons_append, List.cons.injEq] at hw
      obtain ⟨rfl, rfl⟩ := hw
      obtain ⟨ha, hv⟩ := cons_subperm_iff.mp hv
      exact ⟨ha, v, u, rfl, Nat.succ.inj hlength, hv, hu⟩
  · rintro ⟨ha, v, u, rfl, hlength, hv, hu⟩
    exact ⟨a :: v, u, rfl, congrArg Nat.succ hlength, cons_subperm_iff.mpr ⟨ha, hv⟩, hu⟩

/-! ## Listing what a plan spells -/

def words : List (List α × Nat) → List (List α)
  | [] => [[]]
  | (l, n) :: plan => (arrangements l n).flatMap fun v => (words plan).map (v ++ ·)

theorem words_zero : words ((l, 0) :: plan) = words plan := by
  simp [words, arrangements]

theorem words_succ : words ((l, n + 1) :: plan) =
    l.flatMap fun a => (words ((l.erase a, n) :: plan)).map (a :: ·) := by
  simp [words, arrangements, flatMap_assoc, flatMap_map, map_flatMap, Function.comp_def]

theorem mem_words : w ∈ words plan ↔ Spells plan w := by
  induction plan generalizing w with
  | nil => exact mem_singleton
  | cons d plan ih =>
    simp only [words, Spells, mem_flatMap, mem_map, mem_arrangements, ih]
    constructor
    · rintro ⟨v, ⟨hlength, hv⟩, u, hu, rfl⟩
      exact ⟨v, u, rfl, hlength, hv, hu⟩
    · rintro ⟨v, u, rfl, hlength, hv, hu⟩
      exact ⟨v, ⟨hlength, hv⟩, u, hu, rfl⟩

theorem length_words (plan : List (List α × Nat)) :
    (words plan).length = (plan.map fun d => d.1.length.descFactorial d.2).prod := by
  induction plan with
  | nil => rfl
  | cons d plan ih =>
    rw [words, length_flatMap_of_forall (fun v _ => length_map (v ++ ·)), length_arrangements, ih,
      map_cons, prod_cons]

end Clearra.Lib
