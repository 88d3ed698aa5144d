import Mathlib

/-!
# The paths of a given length through a labelled graph

From every state finitely many edges lead on, in an order. The paths of length `n` are listed depth
first, which is the lexicographic order if the edges of every state are listed by increasing label.
The number of paths from every state is what turns a rank into a path: at each state, skip the edges
whose paths all come before.
-/

namespace Clearra.Lib

open List

section

variable {σ ε : Type} (edges : σ → List ε) (target : ε → σ)

/-- The paths with `n` edges from a state. -/
def paths : Nat → σ → List (List ε)
  | 0, _ => [[]]
  | n + 1, s => (edges s).flatMap fun e => (paths n (target e)).map (e :: ·)

/-- Each edge leaves the state the one before leads to. -/
def IsPath : σ → List ε → Prop
  | _, [] => True
  | s, e :: p => e ∈ edges s ∧ IsPath (target e) p

/-- The state a path leads to. -/
def pathEnd (s : σ) (p : List ε) : σ := p.foldl (fun _ e => target e) s

theorem mem_paths {n : Nat} {s : σ} {p : List ε} :
    p ∈ paths edges target n s ↔ p.length = n ∧ IsPath edges target s p := by
  induction n generalizing s p with
  | zero =>
    rw [paths, mem_singleton, length_eq_zero_iff]
    exact ⟨fun h => ⟨h, h ▸ trivial⟩, And.left⟩
  | succ n ih =>
    simp only [paths, mem_flatMap, mem_map, ih]
    constructor
    · rintro ⟨e, he, q, ⟨hlength, hpath⟩, rfl⟩
      exact ⟨by rw [length_cons, hlength], he, hpath⟩
    · rintro ⟨hlength, hpath⟩
      cases p with
      | nil => exact absurd hlength (Nat.zero_ne_add_one n)
      | cons e q => exact ⟨e, hpath.1, q, ⟨Nat.succ.inj hlength, hpath.2⟩, rfl⟩

theorem length_paths_succ (n : Nat) (s : σ) : (paths edges target (n + 1) s).length =
      ((edges s).map fun e => (paths edges target n (target e)).length).sum := by
  simp only [paths, length_flatMap, length_map]

theorem getElem?_flatMap_cons {α β : Type} (f : α → List β) (a : α) (l : List α) (rank : Nat) :
    ((a :: l).flatMap f)[rank]? =
      if rank < (f a).length then (f a)[rank]? else (l.flatMap f)[rank - (f a).length]? := by
  rw [flatMap_cons, getElem?_append]

/-- Depth first is lexicographic. -/
theorem pairwise_paths {ι : Type} [LinearOrder ι] {label : ε → ι}
    (h : ∀ s, (edges s).Pairwise fun e e' => label e < label e') (n : Nat) (s : σ) :
    (paths edges target n s).Pairwise fun p q => p.map label < q.map label := by
  induction n generalizing s with
  | zero => exact pairwise_singleton _ _
  | succ n ih =>
    rw [paths, pairwise_flatMap]
    refine ⟨fun e _ => ?_, (h s).imp fun hlt p hp q hq => ?_⟩
    · rw [pairwise_map]
      exact (ih (target e)).imp fun hlt => List.Lex.cons hlt
    · obtain ⟨p, -, rfl⟩ := mem_map.mp hp
      obtain ⟨q, -, rfl⟩ := mem_map.mp hq
      exact List.Lex.rel hlt

/-- The weights of all paths of one length add up to one, if those of the edges of a state do. -/
theorem sum_paths {R : Type} [Semiring R] {weight : ε → R}
    (h : ∀ s, ((edges s).map weight).sum = 1) (n : Nat) (s : σ) :
    ((paths edges target n s).map fun p => (p.map weight).prod).sum = 1 := by
  induction n generalizing s with
  | zero => simp [paths]
  | succ n ih =>
    have hedge : ∀ e, (((paths edges target n (target e)).map (e :: ·)).map
        fun p => (p.map weight).prod).sum = weight e := by
      intro e
      rw [map_map]
      simp only [Function.comp_def, map_cons, prod_cons]
      rw [sum_map_mul_left, ih, mul_one]
    rw [paths, map_flatMap, flatMap_def, sum_flatten, map_map]
    simp only [Function.comp_def, hedge]
    exact h s

end

end Clearra.Lib
