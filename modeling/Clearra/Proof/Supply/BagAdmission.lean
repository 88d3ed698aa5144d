import Clearra.Proof.Supply.BagProjection

/-!
# An admitted bag state can make every run it was admitted for

`project_bag_initial_state` looks at a state once, before a run of `n` placements. That is enough:
each step keeps what it checked, for one placement less (`Live.step`), so no step of the run meets an
overflow or a remainder that is not one. How many pieces the open bag has given is a matter of how
many were drawn, whichever they were (`sinceRefill`).
-/

namespace Clearra.Proof.Supply

open Clearra.Supply Lib SupplyExecutionAutomaton List Option
open Clearra.Supply.PieceMultisetKey

/-! ## The bag of a pattern -/

theorem pieceSum_count (pieces : List PieceKind) : pieceSum (pieces.count ·) = pieces.length := by
  induction pieces with
  | nil => rfl
  | cons p pieces ih =>
    rw [pieceSum_eq] at ih ⊢
    rw [length_cons, ← ih]
    cases p <;> simp <;> omega

theorem pieceSum_mono {f g : PieceKind → Nat} (h : ∀ p, f p ≤ g p) : pieceSum f ≤ pieceSum g :=
  sum_le_sum fun p _ => h p

theorem forBag_eq_ok {bagPattern : List PieceKind} {self : SupplyExecutionAutomaton}
    (h : forBag bagPattern = .ok self) :
    self = ⟨some (fromPieces bagPattern)⟩ ∧ IsBag (fromPieces bagPattern) ∧
      (∀ p, (fromPieces bagPattern).counts p = bagPattern.count p) ∧
      (fromPieces bagPattern).totalCount = bagPattern.length := by
  rw [forBag] at h
  split at h
  · cases h
  · rename_i hpos
    split at h
    · cases h
    · rename_i hsmall
      cases h
      have hle : ∀ p, (fromPieces bagPattern).counts p ≤ 15 := by
        intro p
        simp only [List.any_eq_true, not_exists, not_and, decide_eq_true_eq, Nat.not_lt] at hsmall
        exact hsmall p (PieceKind.mem_standardTetrominoes p)
      have hcount : ∀ p, (fromPieces bagPattern).counts p = bagPattern.count p := by
        intro p
        have := hle p
        rw [counts_fromPieces_min] at this ⊢
        omega
      have hsum : pieceSum (fromPieces bagPattern).counts = bagPattern.length := by
        rw [funext hcount, pieceSum_count]
      have htotal : (fromPieces bagPattern).totalCount = bagPattern.length := by
        have hfits : pieceSum (fromPieces bagPattern).counts ≤ pieceSum fun _ => 15 :=
          pieceSum_mono hle
        exact totalCount_fromPieces ((hsum ▸ hfits).trans (by decide))
      exact ⟨rfl, ⟨hle, htotal.trans hsum.symm, Nat.pos_of_ne_zero hpos⟩, hcount, htotal⟩

theorem within_of_decodeInitialRemainder {full r : PieceMultisetKey} {key : UInt64} {fresh : Bool}
    (hbag : IsBag full) (h : decodeInitialRemainder key full fresh = .ok r) : Within full r := by
  rw [decodeInitialRemainder] at h
  split at h
  · cases h
    exact hbag.within
  · simp only [bind_eq_ok, refuseIf_eq_ok] at h
    obtain ⟨r', hdecode, -, hexceeds, hret⟩ := h
    cases hret
    have hle : ∀ p, r.counts p ≤ full.counts p := by
      intro p
      simp only [exceedsBag, List.any_eq_true, not_exists, not_and, decide_eq_true_eq,
        Nat.not_lt] at hexceeds
      exact hexceeds p (PieceKind.mem_standardTetrominoes p)
    rw [decodeRemainder] at hdecode
    split at hdecode
    · cases hdecode
    · cases hdecode
      exact ⟨hle, totalCount_fromCounts fun p => (hle p).trans (hbag.counts_le p)⟩

/-! ## One step -/

section Steps

variable {a : BagPlacementAutomaton} {full : PieceMultisetKey} {b c : BagPlacementState}
  {desired : PieceKind} {taken : SupplyExecutionStep} {m : Nat}

/-- A state with a placement left can take any step that is asked for. -/
theorem takenBy_forEachMatchingBagStep (ha : a.inner.fullBag = some full) (hbag : IsBag full)
    (hlive : Live full a.stateIdentity.holdPolicy (m + 1) b) (desired : PieceKind) :
    ∃ steps, a.inner.forEachMatchingBagStep (a.executionState b) desired = .ok steps ∧
      ∀ taken ∈ steps, TakenBy a full b desired taken := by
  have hroom : Room full b 1 := hlive.room.mono (by omega)
  have hroom' : a.stateIdentity.holdPolicy ≠ .forbidden → b.holdPiece = none → Room full b 2 := by
    intro hf hnone
    refine hlive.room.mono ?_
    rw [if_pos ⟨hf, hnone⟩]
    omega
  obtain ⟨held, hheld, -, htaken⟩ := heldSteps_ok ha hbag hlive.within hroom hroom' desired
  rw [forEachMatchingBagStep,
    validateBagState_ok ha hbag hlive.within hlive.slot, currentSteps_ok ha hbag hlive.within hroom,
    hheld]
  refine ⟨_, rfl, ?_⟩
  intro taken hmem
  rcases mem_append.mp hmem with hused | hmem
  · split at hused
    · simp at hused
    · rename_i hreq
      obtain ⟨c, hc, rfl⟩ := mem_map.mp hused
      rw [mem_toList] at hc
      refine ⟨[desired], c, b.holdPiece, .current _ desired hreq, ?_, ?_, rfl⟩
      · rw [drawWord_singleton]
        exact hc
      · rw [← drawOne_holdPiece hc]
        rfl
  · exact htaken taken hmem

/-! ## How much the open bag has given -/

/-- The pieces drawn since the last refill, after a number of draws from a bag of `size` pieces that
    had given `opened` before: an exhausted bag is refilled before the next draw. -/
def sinceRefill (size opened : Nat) : Nat → Nat
  | 0 => opened
  | draws + 1 =>
    if sinceRefill size opened draws = size then 1 else sinceRefill size opened draws + 1

/-- A bag after so many draws from a start, with room for `d` more. -/
structure Drawn (full : PieceMultisetKey) (start : BagPlacementState) (draws d : Nat)
    (b : BagPlacementState) : Prop where
  within : Within full b.bagRemainder
  room : Room full b d
  cursor_eq : b.cursor.toNat = start.cursor.toNat + draws
  given : b.bagRemainder.totalCount + sinceRefill full.totalCount
    (full.totalCount - start.bagRemainder.totalCount) draws = full.totalCount

theorem Drawn.draw {start : BagPlacementState} {draws d : Nat} {p : PieceKind} (hbag : IsBag full)
    (h : Drawn full start draws (d + 1) b) (hdraw : drawOne full b p = some c) :
    Drawn full start (draws + 1) d c := by
  refine ⟨drawOne_within hbag h.within hdraw, h.room.draw hbag h.within hdraw, ?_, ?_⟩
  · have hlt := h.room.cursor_lt
    obtain ⟨r, -, rfl⟩ := drawOne_eq_some hdraw
    change (b.cursor + 1).toNat = _
    rw [UInt16.toNat_add, Nat.mod_eq_of_lt (by change _ + 1 < _; omega), h.cursor_eq]
    rfl
  · -- one piece less: of what was left, or of a full bag if nothing was
    obtain ⟨r, hr, rfl⟩ := drawOne_eq_some hdraw
    have htotal := ((h.within.refill hbag).removePiece hbag hr).2
    have hgiven := h.given
    have hpos := hbag.pos
    rw [refill] at htotal
    rw [sinceRefill]
    dsimp only
    split at htotal <;> split <;> omega

theorem Drawn.drawWord {start : BagPlacementState} {draws d : Nat} {word : List PieceKind}
    (hbag : IsBag full) (h : Drawn full start draws (word.length + d) b)
    (hdraw : drawWord full b word = some c) : Drawn full start (draws + word.length) d c := by
  induction word generalizing b draws with
  | nil =>
    cases hdraw
    rwa [length_nil, Nat.zero_add] at h
  | cons p word ih =>
    obtain ⟨e, he, hrest⟩ := bind_eq_some_iff.mp hdraw
    rw [length_cons, Nat.add_right_comm] at h
    rw [length_cons, Nat.add_comm word.length, ← Nat.add_assoc]
    exact ih (h.draw hbag he) hrest

end Steps

/-! ## Runs -/

/-- Matching bag steps one after another: how many, and how many pieces they drew. -/
inductive BagRun (self : SupplyExecutionAutomaton) (start : SupplyExecutionState) :
    Nat → Nat → SupplyExecutionState → Prop
  | refl : BagRun self start 0 0 start
  | step {placed draws : Nat} {state : SupplyExecutionState} {desired : PieceKind}
      {steps : List SupplyExecutionStep} {taken : SupplyExecutionStep}
      (run : BagRun self start placed draws state)
      (hsteps : self.forEachMatchingBagStep state desired = .ok steps) (htaken : taken ∈ steps) :
      BagRun self start (placed + 1) (draws + taken.evidence.queueAdvances) taken.nextState

theorem BagRun.takes {self : SupplyExecutionAutomaton} {start state next : SupplyExecutionState}
    {placed draws : Nat} (run : BagRun self start placed draws state) (desired : PieceKind) (k : Nat)
    (h : ∃ taken ∈ (self.forEachMatchingBagStep state desired).toOption.getD [],
      taken.nextState = next ∧ taken.evidence.queueAdvances = k) :
    BagRun self start (placed + 1) (draws + k) next := by
  obtain ⟨taken, htaken, rfl, rfl⟩ := h
  cases hsteps : self.forEachMatchingBagStep state desired with
  | error e => simp [hsteps, Except.toOption] at htaken
  | ok steps => exact run.step hsteps (by rwa [hsteps] at htaken)

/-- Where a run stands that has drawn `draws` pieces and may place `m` more. -/
structure Stands (a : BagPlacementAutomaton) (full : PieceMultisetKey) (start : BagPlacementState)
    (draws m : Nat) (b : BagPlacementState) : Prop where
  live : Live full a.stateIdentity.holdPolicy m b
  drawn : Drawn full start draws 0 b

variable {a : BagPlacementAutomaton} {full : PieceMultisetKey} {start b : BagPlacementState}

theorem Stands.step {desired : PieceKind} {taken : SupplyExecutionStep} {draws m : Nat}
    (hbag : IsBag full) (h : Stands a full start draws (m + 1) b)
    (htaken : TakenBy a full b desired taken) :
    ∃ b', taken.nextState = a.executionState b' ∧
      Stands a full start (draws + taken.evidence.queueAdvances) m b' := by
  obtain ⟨word, c, hold, hslot, hdraw, hnext, hadvances⟩ := htaken
  have hroom : Room full b (word.length + 0) := by
    refine h.live.room.mono ?_
    generalize b.holdPiece = before at hslot ⊢
    cases hslot with
    | current | swapHeld => simp only [length_singleton]; omega
    | storeCurrent _ _ hf =>
      rw [if_pos ⟨hf, rfl⟩]
      simp only [length_cons, length_nil]
      omega
  have hdrawn : Drawn full start (draws + word.length) 0 c :=
    Drawn.drawWord hbag { h.drawn with room := hroom } hdraw
  rw [hadvances]
  exact ⟨_, hnext, h.live.step hbag ⟨word, c, hslot, hdraw, rfl⟩, hdrawn.within,
    hdrawn.room.setHold hold, hdrawn.cursor_eq, hdrawn.given⟩

theorem BagRun.stands {n placed draws : Nat} {state : SupplyExecutionState}
    (ha : a.inner.fullBag = some full) (hbag : IsBag full) (h : Stands a full start 0 n start)
    (run : BagRun a.inner (a.executionState start) placed draws state) (hn : placed ≤ n) :
    ∃ b, state = a.executionState b ∧ Stands a full start draws (n - placed) b := by
  induction run with
  | refl => exact ⟨start, rfl, h⟩
  | @step placed draws state desired steps taken run hsteps htaken ih =>
    obtain ⟨b, rfl, hb⟩ := ih (by omega)
    rw [show n - placed = n - (placed + 1) + 1 by omega] at hb
    obtain ⟨steps', hsteps', htakenBy⟩ := takenBy_forEachMatchingBagStep ha hbag hb.live desired
    cases hsteps.symm.trans hsteps'
    exact hb.step hbag (htakenBy taken htaken)

/-- **An admitted state can make every run it was admitted for.** What the bag open at the start had
    given before is what is missing from it. -/
theorem run_of_admitted {bagPattern : List PieceKind} {self : SupplyExecutionAutomaton}
    {state projected : SupplyExecutionState} {holdEnabled : Bool} {n : Nat}
    (hself : forBag bagPattern = .ok self)
    (hprojected : self.projectBagInitialState state holdEnabled n = .ok projected) :
    ∃ remainder, decodeRemainder projected.bagRemainderKey = .ok remainder ∧
      ∀ {placed draws : Nat} {reached : SupplyExecutionState},
        BagRun self projected placed draws reached → placed ≤ n →
        (placed < n → ∀ desired, ∃ steps, self.forEachMatchingBagStep reached desired = .ok steps) ∧
        reached.cursor.toNat = projected.cursor.toNat + draws ∧
        ∃ left, decodeRemainder reached.bagRemainderKey = .ok left ∧
          (∀ p, left.counts p ≤ bagPattern.count p) ∧
          ¬(pieceSum left.counts = 0 ∧ sinceRefill bagPattern.length
            (bagPattern.length - pieceSum remainder.counts) draws = 0) ∧
          pieceSum left.counts + sinceRefill bagPattern.length
            (bagPattern.length - pieceSum remainder.counts) draws = bagPattern.length := by
  obtain ⟨rfl, hbag, hcount, hsize⟩ := forBag_eq_ok hself
  obtain ⟨r, hr, hempty, hslot, hprojected, hroom⟩ := projectBagInitialState_ok hprojected
  have hwithin := within_of_decodeInitialRemainder hbag hr
  let a : BagPlacementAutomaton := ⟨⟨some (fromPieces bagPattern)⟩, projected⟩
  let start : BagPlacementState := ⟨state.cursor, state.holdPiece, state.bagEpoch, r⟩
  have hstart : projected = a.executionState start := by
    change projected = { projected with
      cursor := state.cursor
      holdPiece := state.holdPiece
      holdEmpty := state.holdPiece.isNone
      bagEpoch := state.bagEpoch
      bagRemainderKey := encodeRemainder r }
    rw [hprojected, ← hempty]
  have hfits : pieceSum r.counts ≤ pieceSum (fromPieces bagPattern).counts := pieceSum_mono hwithin.le
  have hlive : Live (fromPieces bagPattern) projected.holdPolicy n start := by
    rw [hprojected]
    exact live_initial hwithin hslot hroom
  have hstands : Stands a (fromPieces bagPattern) start 0 n start := by
    refine ⟨hlive, hwithin, hroom.mono (Nat.zero_le _), rfl, ?_⟩
    change r.totalCount + ((fromPieces bagPattern).totalCount - r.totalCount) = _
    rw [hwithin.total_eq, hbag.total_eq]
    omega
  refine ⟨r, by rw [hprojected]; exact hwithin.decode hbag, ?_⟩
  intro placed draws reached run hn
  rw [hstart] at run
  obtain ⟨b, rfl, hb⟩ := BagRun.stands (a := a) rfl hbag hstands run hn
  have hgiven := hb.drawn.given
  have hpos := hbag.pos
  rw [hsize] at hgiven hpos
  rw [hb.live.within.total_eq, show start.bagRemainder.totalCount = pieceSum r.counts
    from hwithin.total_eq] at hgiven
  refine ⟨?_, ?_, b.bagRemainder, hb.live.within.decode hbag, ?_, by omega, hgiven⟩
  · intro hlt desired
    have hlive := hb.live
    rw [show n - placed = n - placed - 1 + 1 by omega] at hlive
    obtain ⟨steps, hsteps, -⟩ := takenBy_forEachMatchingBagStep (a := a) rfl hbag hlive desired
    exact ⟨steps, hsteps⟩
  · rw [hprojected]
    exact hb.drawn.cursor_eq
  · intro p
    rw [← hcount]
    exact hb.live.within.le p

def pairState (cursor : UInt16) (hold : PieceKind) (epoch : UInt16) (left : List PieceKind) :
    SupplyExecutionState :=
  .withContract 1 .bagUniverse cursor (some hold) .allowed epoch
    (encodeRemainder (fromPieces left)) .fullQueueOracle 1

/-- The held `O` is swapped for the last piece of the bag, the `I` is drawn from the next bag. -/
theorem run_of_admitted_refill :
    ∃ self, forBag [.T, .I] = .ok self ∧
      self.projectBagInitialState (pairState 1 .O 0 [.T]) true 3 = .ok (pairState 1 .O 0 [.T]) ∧
      BagRun self (pairState 1 .O 0 [.T]) 2 2 (pairState 3 .T 1 [.T]) ∧
      ∀ desired, ∃ steps,
        self.forEachMatchingBagStep (pairState 3 .T 1 [.T]) desired = .ok steps := by
  have hself : forBag [.T, .I] = .ok ⟨some (fromPieces [.T, .I])⟩ := by decide
  have hrun : BagRun ⟨some (fromPieces [.T, .I])⟩ (pairState 1 .O 0 [.T]) 2 2
      (pairState 3 .T 1 [.T]) := by
    have hfirst : BagRun ⟨some (fromPieces [.T, .I])⟩ (pairState 1 .O 0 [.T]) 1 1
        (pairState 2 .T 0 []) := BagRun.takes .refl .O 1 (by decide)
    exact hfirst.takes .I 1 (by decide)
  have hprojected : (⟨some (fromPieces [.T, .I])⟩ : SupplyExecutionAutomaton).projectBagInitialState
      (pairState 1 .O 0 [.T]) true 3 = .ok (pairState 1 .O 0 [.T]) := by decide
  obtain ⟨_, -, hreached⟩ := run_of_admitted hself hprojected
  exact ⟨_, hself, hprojected, hrun, (hreached hrun (by decide)).1 (by decide)⟩

end Clearra.Proof.Supply
