import Clearra.Proof.Executor.Reachability

/-!
# Cutting the sky is exact

The tables stop a few rows above the board. Nothing below the board's top is lost by that: a move
that ends below the top starts under the ceiling, since no kick falls further than the ceiling is
high (`reachable_cut`). The other direction is not free. A kick whose target lies above the ceiling
is missing from the compiled list, and if it would have been taken, the compiled rotation goes on
to a later kick the game never tries. That is harmless when the two are close together — the later
target is then still above the top, where everything is reachable — and where they are not, an
earlier kick into the same columns gets in between. `ExactKicks` is that condition on a list, decided
over every list of every profile.
-/

namespace Clearra.Proof.Executor

open Clearra.Executor List Bool
open Clearra.Executor.Arena
open Clearra.Rules

/-- The compiled displacements of one rotation, in order. -/
def kickDeltasOf (piece : PieceKind) (profile : KickTableProfile) (src dst : RotationState) :
    List (Int × Int) :=
  ((profile.sequenceFor ⟨piece, src, dst⟩).getD []).map (normalizedKickDelta piece src dst)

/-- When losing the kicks above row `D` over the top never shows below the top. For a lost kick `i`
    and a later kick `j`: either no row makes `i` too high and `j` land below the top, or whenever
    one does, some kick `k` before `j` lands in `j`'s columns between the top and the ceiling. -/
def ExactKicks (D : Nat) (deltas : List (Int × Int)) : Prop :=
  ∀ j ∈ deltas.zipIdx, ∀ i ∈ deltas.take j.2,
    i.2 - j.1.2 ≤ D + 1 ∨
      ∃ k ∈ deltas.take j.2, k.1 = j.1.1 ∧ 0 ≤ D - i.2 + 1 + k.2 ∧ k.2 - j.1.2 - 1 ≤ D

instance (D : Nat) (deltas : List (Int × Int)) : Decidable (ExactKicks D deltas) :=
  inferInstanceAs (Decidable (∀ j ∈ deltas.zipIdx, _))

/-- What is decided of a profile and a piece. -/
def ProfileExact (piece : PieceKind) (allow180 : Bool) (profile : KickTableProfile) (D : Nat) :
    Prop :=
  ∀ src ∈ RotationState.all,
    ∀ dst ∈ if allow180 then rotationsFrom src else [src.clockwise, src.counterClockwise],
      (∀ d ∈ kickDeltasOf piece profile src dst, -(D : Int) ≤ d.2) ∧
        ExactKicks D (kickDeltasOf piece profile src dst)

instance (piece : PieceKind) (allow180 : Bool) (profile : KickTableProfile) (D : Nat) :
    Decidable (ProfileExact piece allow180 profile D) :=
  inferInstanceAs (Decidable (∀ src ∈ RotationState.all, _))

theorem profileExact_of_builtin {profile : KickTableProfile} (h : profile ∈ builtinKickProfiles)
    (piece : PieceKind) (allow180 : Bool) :
    ProfileExact piece allow180 profile (maximumDownward piece allow180 profile) := by
  have hall : ∀ profile ∈ builtinKickProfiles, ∀ piece ∈ PieceKind.standardTetrominoes,
      ∀ allow180 ∈ [true, false],
        ProfileExact piece allow180 profile (maximumDownward piece allow180 profile) := by
    decide +kernel
  exact hall profile h piece (PieceKind.mem_standardTetrominoes piece) allow180
    (by cases allow180 <;> simp)

/-! ## From kick lists to rotations -/

theorem kickTargets_eq (g : Arena) (s : State) (dst : RotationState) :
    g.kickTargets s dst = (kickDeltasOf g.piece g.profile s.rotation dst).map
      fun d => ⟨dst, s.x + d.1, s.y + d.2⟩ := by
  rw [kickTargets, kickDeltasOf, map_map]
  rfl

/-- The kick lists of one arena. -/
def ExactArena (g : Arena) : Prop :=
  ProfileExact g.piece g.allow180 g.profile (maximumDownward g.piece g.allow180 g.profile)

variable {g : Arena} {s : State}

theorem ExactArena.of_choice (hg : ExactArena g) {dst : RotationState}
    (hdst : dst ∈ g.rotationChoices s) : (∀ d ∈ kickDeltasOf g.piece g.profile s.rotation dst,
      -(maximumDownward g.piece g.allow180 g.profile : Int) ≤ d.2) ∧
      ExactKicks (maximumDownward g.piece g.allow180 g.profile)
        (kickDeltasOf g.piece g.profile s.rotation dst) :=
  hg s.rotation (RotationState.mem_all _) dst hdst

/-- No move falls further than the ceiling is above the top. -/
theorem le_ceilingOf_of_move (hg : ExactArena g) {ceiling : Option Nat} {s t : State}
    (h : g.Move ceiling s t) (hlow : t.y < g.height) : s.y ≤ ceilingOf g := by
  rw [ceilingOf, sourceCeiling]
  cases h with
  | translate slot _ =>
    fin_cases slot <;> simp only [translationCandidates] at hlow <;> omega
  | rotate dst hdst t hfind =>
    have hmem := mem_of_find?_eq_some hfind
    rw [kickTargets_eq, mem_map] at hmem
    obtain ⟨d, hd, rfl⟩ := hmem
    have hdown := (hg.of_choice hdst).1 d hd
    simp only at hlow
    omega

theorem free_cut_iff : g.Free (some (ceilingOf g)) s ↔ s.y ≤ ceilingOf g ∧ g.Free none s := by
  rw [Free, Free, under_some]
  exact ⟨fun h => ⟨h.1, under_none s, h.2⟩, fun h => ⟨h.1, h.2.2⟩⟩

/-- A game move that ends under the ceiling is a move of the cut space: the kicks before it were
    not free, and cutting frees nothing. -/
theorem move_cut_of_move {s t : State} (h : g.Move none s t) (hunder : t.y ≤ ceilingOf g) :
    g.Move (some (ceilingOf g)) s t := by
  cases h with
  | translate slot hfree => exact .translate s slot (free_cut_iff.mpr ⟨hunder, hfree⟩)
  | rotate dst hdst t hfind =>
    refine .rotate s dst hdst t ?_
    rw [find?_eq_some_iff_append] at hfind ⊢
    obtain ⟨hfree, front, back, hsplit, hfront⟩ := hfind
    refine ⟨?_, front, back, hsplit, fun u hu => ?_⟩
    · exact decide_eq_true (free_cut_iff.mpr ⟨hunder, of_decide_eq_true hfree⟩)
    · have hnot := hfront u hu
      rw [not_eq_true', decide_eq_false_iff_not] at hnot ⊢
      exact fun hcut => hnot (free_cut_iff.mp hcut).2

/-- **A compiled rotation that lands below the top is the game's rotation.** -/
theorem move_of_move_cut (hg : ExactArena g) {s t : State} (h : g.Move (some (ceilingOf g)) s t)
    (hlow : t.y < g.height) : g.Move none s t := by
  cases h with
  | translate slot hfree => exact .translate s slot (free_cut_iff.mp hfree).2
  | rotate dst hdst t hfind =>
    refine .rotate s dst hdst t ?_
    obtain ⟨-, hexact⟩ := hg.of_choice hdst
    rw [kickTargets_eq] at hfind ⊢
    generalize kickDeltasOf g.piece g.profile s.rotation dst = deltas at hfind hexact
    rw [find?_eq_some_iff_getElem] at hfind ⊢
    obtain ⟨hfree, j, hj, hval, hbefore⟩ := hfind
    have hfree := of_decide_eq_true hfree
    refine ⟨decide_eq_true (free_cut_iff.mp hfree).2, j, hj, hval, fun i hij => ?_⟩
    -- suppose an earlier kick is free in the game; then it was cut for being too high
    rw [not_eq_true', decide_eq_false_iff_not]
    intro hfreei
    have hlen : j < deltas.length := by simpa using hj
    have hcut : ∀ k (hk : k < j), ¬g.Free (some (ceilingOf g))
        ⟨dst, s.x + deltas[k].1, s.y + deltas[k].2⟩ := by
      intro k hk
      have := hbefore k hk
      rw [not_eq_true', decide_eq_false_iff_not, getElem_map] at this
      exact this
    rw [getElem_map] at hval hfreei
    subst hval
    have hhigh : ¬s.y + deltas[i].2 ≤ ceilingOf g := fun hle =>
      hcut i hij (free_cut_iff.mpr ⟨hle, hfreei⟩)
    rw [ceilingOf, sourceCeiling] at hhigh
    simp only at hlow
    rcases hexact (deltas[j], j) (mem_zipIdx_iff_getElem?.mpr (getElem?_eq_getElem hlen))
        deltas[i] (mem_take_iff_getElem.mpr ⟨i, by omega, rfl⟩) with hclose | hbetween
    · simp only at hclose
      omega
    · -- the kick in between lands over the top in columns that fit, so it would have been taken
      obtain ⟨d, hd, hcol, hrow, hrow'⟩ := hbetween
      obtain ⟨k, hk, rfl⟩ := mem_take_iff_getElem.mp hd
      simp only at hcol hrow hrow'
      have hfit : g.Fits ⟨dst, s.x + deltas[k].1, s.y + deltas[k].2⟩ := by
        rw [hcol]
        exact hfree.2.1.of_row (by omega)
      refine hcut k (by omega) (free_cut_iff.mpr ⟨?_, under_none _, hfit, ?_⟩)
      · rw [ceilingOf, sourceCeiling]
        simp only
        omega
      · refine clear_of_height_le ?_
        simp only
        omega

/-! ## Runs -/

theorem reachable_cut (hg : ExactArena g) (h : g.Reachable none s) (hunder : s.y ≤ ceilingOf g) :
    g.Reachable (some (ceilingOf g)) s := by
  obtain ⟨seed, hsky, hrun⟩ := h
  induction hrun with
  | refl => exact ⟨seed, ⟨under_some.mpr hunder, hsky.2⟩, .refl⟩
  | @tail mid t _ hstep ih =>
    by_cases hlow : t.y < g.height
    · -- it came from under the ceiling
      obtain ⟨seed', hsky', hrun'⟩ := ih (le_ceilingOf_of_move hg hstep hlow)
      exact ⟨seed', hsky', hrun'.tail (move_cut_of_move hstep hunder)⟩
    · -- over the top it is sky
      exact ⟨t, ⟨under_some.mpr hunder, hstep.free.2.1, by omega⟩, .refl⟩

theorem reachable_of_cut (hg : ExactArena g) (h : g.Reachable (some (ceilingOf g)) s) :
    g.Reachable none s := by
  obtain ⟨seed, hsky, hrun⟩ := h
  induction hrun with
  | refl => exact ⟨seed, ⟨under_none seed, hsky.2⟩, .refl⟩
  | @tail mid t _ hstep ih =>
    by_cases hlow : t.y < g.height
    · obtain ⟨seed', hsky', hrun'⟩ := ih
      exact ⟨seed', hsky', hrun'.tail (move_of_move_cut hg hstep hlow)⟩
    · exact ⟨t, ⟨under_none t, hstep.free.2.1, by omega⟩, .refl⟩

/-- **Truncating the sky is exact.** For every built-in profile, piece, half-turn setting, board of
    at most 64 cells and board contents, the search over the state space cut at `source_ceiling`
    ends, and below the top it finds exactly the grounded poses reachable in the space without a
    ceiling, where rotations choose from their full kick lists. -/
theorem locks_iff_unbounded {width height : Nat} (hwidth : width ≤ 255)
    (hcells : width * height ≤ 64) (piece : PieceKind) (allow180 : Bool)
    {profileId : KickTableProfileId} {profile : KickTableProfile}
    (hprofile : builtinKickProfile profileId = some profile) (board : Board)
    (scratch : ReachabilityScratch) :
    ∃ result after,
      searchReachableLocks (.compileWith width height piece allow180 profile) board scratch none =
        some (result, after) ∧
      ∀ (rotation : RotationState) (x y : Int), y < height →
        (result.locks.contains width rotation x y = true ↔
          Grounded ⟨width, height, piece, allow180, profile, board⟩ ⟨rotation, x, y⟩ ∧
          Reachable ⟨width, height, piece, allow180, profile, board⟩ none ⟨rotation, x, y⟩) := by
  let g : Arena := ⟨width, height, piece, allow180, profile, board⟩
  have hmem := mem_builtinKickProfiles hprofile
  have hs : Small g := .of_builtin hmem hwidth hcells
  have hg : ExactArena g := profileExact_of_builtin hmem piece allow180
  obtain ⟨result, after, hrun, -, hlocks⟩ := searchReachableLocks_spec hs hcells scratch
  refine ⟨result, after, hrun, fun rotation x y hy => (hlocks rotation x y hy).trans ?_⟩
  refine and_congr_right fun _ => ⟨reachable_of_cut hg, fun h => reachable_cut hg h ?_⟩
  change y ≤ ((ceilingOf g : Nat) : Int)
  rw [ceilingOf, sourceCeiling]
  change y ≤ ((height + maximumDownward piece allow180 profile : Nat) : Int)
  omega

/-- A `T` under SRS-X with half turns, over an empty 4×3 board. -/
theorem locks_iff_unbounded_T : ∃ profile result after,
    builtinKickProfile .srsX = some profile ∧
      searchReachableLocks (.compileWith 4 3 .T true profile) 0 .empty none =
        some (result, after) ∧ (result.locks.contains 4 .two 0 0 = true ↔
        Grounded ⟨4, 3, .T, true, profile, 0⟩ ⟨.two, 0, 0⟩ ∧
        Reachable ⟨4, 3, .T, true, profile, 0⟩ none ⟨.two, 0, 0⟩) := by
  obtain ⟨result, after, hrun, hlocks⟩ := locks_iff_unbounded (show 4 ≤ 255 by decide)
    (show 4 * 3 ≤ 64 by decide) .T true (show builtinKickProfile .srsX = some _ from rfl) 0 .empty
  exact ⟨_, result, after, rfl, hrun, hlocks .two 0 0 (by decide)⟩

end Clearra.Proof.Executor
