import Clearra.Executor.PoseMoves
import Clearra.Lib.Bits

/-!
# Numbered poses and their masks

Two translations between the tables and the game. The numbering is a bijection between the poses
inside the columns and under the ceiling, and the indices below the table size; a compiled mask is
valid exactly for a pose that fits, and meets the board exactly for one that collides. After this
file an index is a pose and a mask test is a statement about cells.
-/

namespace Clearra.Proof.Executor

open Clearra.Executor Option List BitVec
open Clearra.Executor.Arena

/-! ## The numbering -/

section Numbering

variable {width ceiling : Nat}

theorem stateIndex_eq_some {s : State} {i : Nat} : stateIndex width ceiling s = some i ↔
    (0 ≤ s.x ∧ s.x < width ∧ 0 ≤ s.y ∧ s.y ≤ ceiling) ∧
      (s.rotation.quarterTurns * (ceiling + 1) + s.y.toNat) * width + s.x.toNat = i := by
  unfold stateIndex
  split
  · rename_i h
    refine ⟨by simp, fun h' => ?_⟩
    omega
  · rename_i h
    rw [Option.some.injEq]
    refine ⟨fun h' => ⟨by omega, h'⟩, fun h' => h'.2⟩

theorem stateIndex_isSome {s : State} (h : 0 ≤ s.x ∧ s.x < width ∧ 0 ≤ s.y ∧ s.y ≤ ceiling) :
    ∃ i, stateIndex width ceiling s = some i :=
  ⟨_, stateIndex_eq_some.mpr ⟨h, rfl⟩⟩

theorem stateFromIndex_of_stateIndex {s : State} {i : Nat}
    (h : stateIndex width ceiling s = some i) :
    stateFromIndex width ceiling i = s ∧ i < 4 * (ceiling + 1) * width := by
  obtain ⟨⟨hx0, hxw, hy0, hyc⟩, rfl⟩ := stateIndex_eq_some.mp h
  obtain ⟨r, x, y⟩ := s
  simp only at hx0 hxw hy0 hyc ⊢
  obtain ⟨a, rfl⟩ := Int.eq_ofNat_of_zero_le hx0
  obtain ⟨b, rfl⟩ := Int.eq_ofNat_of_zero_le hy0
  have ha : a < width := by omega
  have hb : b < ceiling + 1 := by omega
  simp only [Int.toNat_natCast]
  have hin : b * width + a < (ceiling + 1) * width := by
    calc b * width + a < b * width + width := by omega
      _ = (b + 1) * width := by ring
      _ ≤ (ceiling + 1) * width := Nat.mul_le_mul_right _ hb
  have hsplit : (r.quarterTurns * (ceiling + 1) + b) * width + a =
      (b * width + a) + (ceiling + 1) * width * r.quarterTurns := by ring
  constructor
  · rw [hsplit, stateFromIndex]
    simp only [Nat.add_mul_mod_self_left, Nat.mod_eq_of_lt hin,
      Nat.add_mul_div_left _ _ (Nat.zero_lt_of_lt hin), Nat.div_eq_of_lt hin, Nat.zero_add,
      RotationState.fromQuarterTurns_quarterTurns, getD_some, State.mk.injEq, true_and]
    rw [Nat.mul_comm b width, Nat.mul_add_mod, Nat.mod_eq_of_lt ha,
      Nat.mul_add_div (Nat.zero_lt_of_lt ha), Nat.div_eq_of_lt ha, Nat.add_zero]
    exact ⟨rfl, rfl⟩
  · have hr := r.quarterTurns_lt
    calc (r.quarterTurns * (ceiling + 1) + b) * width + a
        = (b * width + a) + (ceiling + 1) * width * r.quarterTurns := hsplit
      _ < (ceiling + 1) * width + (ceiling + 1) * width * r.quarterTurns := by omega
      _ = (ceiling + 1) * width * (r.quarterTurns + 1) := by ring
      _ ≤ (ceiling + 1) * width * 4 := Nat.mul_le_mul_left _ hr
      _ = 4 * (ceiling + 1) * width := by ring

theorem stateIndex_stateFromIndex {i : Nat} (h : i < 4 * (ceiling + 1) * width) :
    stateIndex width ceiling (stateFromIndex width ceiling i) = some i := by
  have hw : 0 < width := by
    rcases Nat.eq_zero_or_pos width with h0 | h0
    · rw [h0] at h; simp at h
    · exact h0
  have hstride : 0 < (ceiling + 1) * width := Nat.mul_pos (by omega) hw
  have hq : i / ((ceiling + 1) * width) < 4 := by
    rw [Nat.div_lt_iff_lt_mul hstride]
    calc i < 4 * (ceiling + 1) * width := h
      _ = 4 * ((ceiling + 1) * width) := by ring
  have hrem : i % ((ceiling + 1) * width) < (ceiling + 1) * width := Nat.mod_lt _ hstride
  have hrow : i % ((ceiling + 1) * width) / width < ceiling + 1 := by
    rw [Nat.div_lt_iff_lt_mul hw]; exact hrem
  have hcol : i % ((ceiling + 1) * width) % width < width := Nat.mod_lt _ hw
  have hturns : ((RotationState.fromQuarterTurns (i / ((ceiling + 1) * width))).getD
      .zero).quarterTurns = i / ((ceiling + 1) * width) := by
    generalize i / ((ceiling + 1) * width) = q at hq
    interval_cases q <;> rfl
  rw [stateIndex_eq_some]
  refine ⟨⟨?_, ?_, ?_, ?_⟩, ?_⟩
  · exact Int.natCast_nonneg _
  · exact Int.ofNat_lt.mpr hcol
  · exact Int.natCast_nonneg _
  · exact Int.ofNat_le.mpr (Nat.le_of_lt_succ hrow)
  · simp only [stateFromIndex, hturns, Int.toNat_natCast]
    calc (i / ((ceiling + 1) * width) * (ceiling + 1) + i % ((ceiling + 1) * width) / width) *
          width + i % ((ceiling + 1) * width) % width
        = (ceiling + 1) * width * (i / ((ceiling + 1) * width)) +
          (width * (i % ((ceiling + 1) * width) / width) +
            i % ((ceiling + 1) * width) % width) := by ring
      _ = i := by rw [Nat.div_add_mod, Nat.div_add_mod]

end Numbering

/-! ## Masks -/

/-- The bit of one board cell of a pose. -/
def cellIndex (width : Nat) (s : State) (c : ShapeCell) : Nat :=
  (s.y + c.y).toNat * width + (s.x + c.x).toNat

/-- One cell's contribution to a mask. -/
def maskStep (width height : Nat) (s : State) (mask : Board) (cell : ShapeCell) : Option Board :=
  if s.x + cell.x < 0 ∨ s.x + cell.x ≥ width ∨ s.y + cell.y < 0 then none
  else if s.y + cell.y < height then some (mask ||| bit (cellIndex width s cell))
  else some mask

theorem poseMask_eq_foldlM (width height : Nat) (piece : PieceKind) (s : State) :
    poseMask width height piece s =
      (shapeCells piece s.rotation).foldlM (maskStep width height s) 0 := rfl

variable {s : State}

/-- The accumulated mask: fails on the first cell outside, else collects the cells on the board. -/
theorem foldlM_maskStep {width height : Nat} : ∀ (cells : List ShapeCell) (m : Board),
    ((∀ c ∈ cells, 0 ≤ s.x + c.x ∧ s.x + c.x < width ∧ 0 ≤ s.y + c.y) →
      ∃ m', cells.foldlM (maskStep width height s) m = some m' ∧
        ∀ k, m'.getLsbD k = true ↔ m.getLsbD k = true ∨
          k < 64 ∧ ∃ c ∈ cells, s.y + c.y < height ∧ k = cellIndex width s c) ∧
    (¬(∀ c ∈ cells, 0 ≤ s.x + c.x ∧ s.x + c.x < width ∧ 0 ≤ s.y + c.y) →
      cells.foldlM (maskStep width height s) m = none) := by
  intro cells
  induction cells with
  | nil =>
    intro m
    refine ⟨fun _ => ⟨m, rfl, fun k => by simp⟩, fun h => absurd (by simp) h⟩
  | cons c rest ih =>
    intro m
    rw [foldlM_cons]
    by_cases hc : 0 ≤ s.x + c.x ∧ s.x + c.x < width ∧ 0 ≤ s.y + c.y
    · have hin : ¬(s.x + c.x < 0 ∨ s.x + c.x ≥ width ∨ s.y + c.y < 0) := by omega
      -- the word after this cell, whichever side of the top it is on
      obtain ⟨m₁, hstep, hbits⟩ : ∃ m₁, maskStep width height s m c = some m₁ ∧
          ∀ k, m₁.getLsbD k = true ↔ m.getLsbD k = true ∨
            k < 64 ∧ s.y + c.y < height ∧ k = cellIndex width s c := by
        unfold maskStep
        rw [if_neg hin]
        by_cases hlow : s.y + c.y < height
        · refine ⟨_, if_pos hlow, fun k => ?_⟩
          rw [getLsbD_or, bit, Lib.getLsbD_one_shiftLeft, Bool.or_eq_true, decide_eq_true_eq]
          tauto
        · exact ⟨m, if_neg hlow, fun k => by simp [hlow]⟩
      rw [hstep, bind_eq_bind, bind_some]
      obtain ⟨ihfit, ihout⟩ := ih m₁
      constructor
      · intro hall
        obtain ⟨m', hm', hb'⟩ := ihfit fun c' hc' => hall c' (mem_cons_of_mem _ hc')
        refine ⟨m', hm', fun k => ?_⟩
        rw [hb', hbits]
        simp only [mem_cons, exists_eq_or_imp]
        exact or_assoc.trans (or_congr_right and_or_left.symm)
      · intro hnot
        refine ihout fun hrest => hnot fun c' hc' => ?_
        rcases mem_cons.mp hc' with rfl | h
        · exact hc
        · exact hrest c' h
    · have hout : s.x + c.x < 0 ∨ s.x + c.x ≥ width ∨ s.y + c.y < 0 := by omega
      have hstep : maskStep width height s m c = none := if_pos hout
      rw [hstep]
      exact ⟨fun hall => absurd (hall c mem_cons_self) hc, fun _ => rfl⟩

variable {g : Arena}

theorem poseMask_of_fits (h : g.Fits s) :
    ∃ m, poseMask g.width g.height g.piece s = some m ∧
      ∀ k, m.getLsbD k = true ↔
        k < 64 ∧ ∃ c ∈ shapeCells g.piece s.rotation, s.y + c.y < g.height ∧
          k = cellIndex g.width s c := by
  obtain ⟨m, hm, hbits⟩ := (foldlM_maskStep (shapeCells g.piece s.rotation) 0).1 h
  refine ⟨m, by rw [poseMask_eq_foldlM]; exact hm, fun k => ?_⟩
  rw [hbits k]
  simp

theorem poseMask_of_not_fits (h : ¬g.Fits s) : poseMask g.width g.height g.piece s = none := by
  rw [poseMask_eq_foldlM]
  exact (foldlM_maskStep (shapeCells g.piece s.rotation) 0).2 h

/-- Four cells cannot fill a word, so a valid mask is never mistaken for the sentinel. -/
theorem ne_invalidStateMask {m : Board} (hbits : ∀ k, m.getLsbD k = true ↔
        k < 64 ∧ ∃ c ∈ shapeCells g.piece s.rotation, s.y + c.y < g.height ∧
          k = cellIndex g.width s c) : m ≠ invalidStateMask := by
  rintro rfl
  -- all 64 positions would be cells of the piece
  have hsub : Finset.range 64 ⊆
      ((shapeCells g.piece s.rotation).map (cellIndex g.width s)).toFinset := by
    intro k hk
    rw [Finset.mem_range] at hk
    obtain ⟨-, c, hc, -, rfl⟩ := (hbits k).mp (by
      rw [invalidStateMask, getLsbD_allOnes]
      exact decide_eq_true hk)
    exact mem_toFinset.mpr (mem_map_of_mem hc)
  have hcard := (Finset.card_le_card hsub).trans (toFinset_card_le _)
  rw [length_map, length_shapeCells, Finset.card_range] at hcard
  omega

/-- Reading the board through the mask of a pose that fits. -/
theorem and_poseMask_eq_zero {m : Board} (hbits : ∀ k, m.getLsbD k = true ↔
        k < 64 ∧ ∃ c ∈ shapeCells g.piece s.rotation, s.y + c.y < g.height ∧
          k = cellIndex g.width s c) : (g.board &&& m) = 0 ↔ g.Clear s := by
  rw [show (0 : Board) = 0#64 from rfl, Lib.and_eq_zero_iff]
  constructor
  · intro h c hc hlow
    by_contra hset
    rw [Bool.not_eq_false] at hset
    exact h _ hset ((hbits _).mpr ⟨lt_of_getLsbD hset, c, hc, hlow, rfl⟩)
  · intro h k hboard hmask
    obtain ⟨-, c, hc, hlow, rfl⟩ := (hbits k).mp hmask
    have hfalse := h c hc hlow
    rw [cellIndex] at hboard
    rw [hboard] at hfalse
    simp at hfalse

end Clearra.Proof.Executor
