import Mathlib.Computability.NFA
import Clearra.Proof.Supply.HoldRuns
import Clearra.Proof.Supply.PatternWords

/-!
# The automaton behind a frontier

A state of the union language is how far the draws have come and what is held. Placing a piece is a step
of the hold machine of `SlotRuns` on pieces drawn from the plan, so a nondeterministic automaton whose
input is the placed pieces. It accepts what some queue of the universe lets the hold machine place: the
pieces drawn so far are always the beginning of a queue.
-/

namespace Clearra.Proof.Supply

open Clearra.Supply Lib List Option

variable {language : CompactPatternUnionLanguage}

variable (h : ∀ atom ∈ language.atoms, Drawable atom)

/-! ## Drawing -/

/-- What is left to draw. -/
def pending (language : CompactPatternUnionLanguage) (d : DrawState) : List (List PieceKind × Nat) :=
  match language.atoms[d.atom]? with
  | some atom => (members d.remaining, atom.draws - d.used) :: plan (language.atoms.drop (d.atom + 1))
  | none => []

/-- In the middle of an atom enough pieces are left to draw it out. -/
structure DrawSound (language : CompactPatternUnionLanguage) (d : DrawState) : Prop where
  used_lt : ∀ atom, language.atoms[d.atom]? = some atom → d.used < atom.draws
  enough : ∀ atom, language.atoms[d.atom]? = some atom →
    atom.draws - d.used ≤ (members d.remaining).length

/-- The state in which an atom begins. -/
def atomStart (language : CompactPatternUnionLanguage) (atom consumed : Nat) : DrawState :=
  ⟨atom, 0, (language.atoms[atom]?).elim 0 DrawAtom.choices, consumed⟩

theorem pending_atomStart (language : CompactPatternUnionLanguage) (atom consumed : Nat) :
    pending language (atomStart language atom consumed) = plan (language.atoms.drop atom) := by
  rw [pending, atomStart]
  dsimp only
  cases hatom : language.atoms[atom]? with
  | none =>
    rw [drop_of_length_le (getElem?_eq_none_iff.mp hatom)]
    rfl
  | some first =>
    obtain ⟨hlt, rfl⟩ := List.getElem?_eq_some_iff.mp hatom
    rw [List.drop_eq_getElem_cons hlt]
    rfl

include h in
theorem drawSound_atomStart (atom consumed : Nat) :
    DrawSound language (atomStart language atom consumed) := by
  have hdrawable : ∀ first, language.atoms[atom]? = some first → Drawable first := by
    intro first hfirst
    exact h first (mem_of_getElem? hfirst)
  refine ⟨fun first hfirst => (hdrawable first hfirst).draws_pos, ?_⟩
  intro first hfirst
  have hremaining : (atomStart language atom consumed).remaining = first.choices := by
    change (language.atoms[atom]?).elim 0 DrawAtom.choices = first.choices
    rw [show language.atoms[atom]? = some first from hfirst]
    rfl
  rw [hremaining]
  exact (Nat.sub_le _ _).trans (hdrawable first hfirst).draws_le

/-- What one draw does. -/
structure Draws (language : CompactPatternUnionLanguage) (d : DrawState) (piece : PieceKind)
    (d' : DrawState) : Prop where
  consumed_lt : d.consumed < language.sequencePieces
  consumed_eq : d'.consumed = d.consumed + 1
  sound : DrawSound language d'
  spells : ∀ w, Spells (pending language d') w ↔ Spells (pending language d) (piece :: w)

include h in
theorem draws_of_draw {d d' : DrawState}
    (hd : DrawSound language d) {piece : PieceKind} (hdraw : language.draw d piece = some d') :
    Draws language d piece d' := by
  rw [CompactPatternUnionLanguage.draw] at hdraw
  split at hdraw
  · simp at hdraw
  · rename_i hfree
    push Not at hfree
    obtain ⟨hconsumed, hmask⟩ := hfree
    have hmem : piece ∈ members d.remaining := mem_members.mpr ((and_pieceBit_ne_zero _ _).mp hmask)
    rw [bind_eq_bind, bind_eq_some_iff] at hdraw
    obtain ⟨atom, hatom, hdraw⟩ := hdraw
    have hused := hd.used_lt atom hatom
    have henough := hd.enough atom hatom
    have hpending : pending language d =
        (members d.remaining, atom.draws - d.used) :: plan (language.atoms.drop (d.atom + 1)) := by
      rw [pending, hatom]
    split at hdraw
    · rename_i hlast
      obtain rfl : atomStart language (d.atom + 1) (d.consumed + 1) = d' := Option.some.inj hdraw
      refine ⟨hconsumed, rfl, drawSound_atomStart h _ _, fun w => ?_⟩
      rw [pending_atomStart, hpending, show atom.draws - d.used = 0 + 1 by omega,
        spells_succ_cons, spells_zero, and_iff_right hmem]
    · rename_i hmore
      cases hdraw
      have hlength : (members (d.remaining &&& ~~~pieceBit piece)).length =
          (members d.remaining).length - 1 := by
        rw [members_remove, length_erase_of_mem hmem]
      refine ⟨hconsumed, rfl, ⟨?_, ?_⟩, fun w => ?_⟩
      · intro atom' hatom'
        cases hatom.symm.trans hatom'
        dsimp only
        omega
      · intro atom' hatom'
        cases hatom.symm.trans hatom'
        dsimp only
        omega
      · rw [hpending, show atom.draws - d.used = atom.draws - (d.used + 1) + 1 by omega,
          spells_succ_cons, and_iff_right hmem, ← members_remove, pending]
        dsimp only
        rw [hatom]

/-- Several draws. -/
def walk (language : CompactPatternUnionLanguage) (d : DrawState) (pieces : List PieceKind) :
    Option DrawState :=
  pieces.foldlM language.draw d

/-- A state a frontier can hold. -/
structure PlacementSound (language : CompactPatternUnionLanguage) (s : PlacementState) : Prop where
  draw : DrawSound language s.draw
  consumed_le : s.draw.consumed ≤ language.sequencePieces
  free : language.initial.holdPolicy = .forbidden → s.held = none

/-- What `advance` tries for one drawn piece, in its order. -/
def pieceSuccessors (language : CompactPatternUnionLanguage) (s : PlacementState) (desired current : PieceKind) :
    List PlacementState :=
  match language.draw s.draw current with
  | none => []
  | some afterCurrent =>
    (if current = desired ∧ language.initial.holdPolicy ≠ .required then [⟨afterCurrent, s.held⟩]
      else []) ++
    if language.initial.holdPolicy = .forbidden then []
    else if s.held = some desired then [⟨afterCurrent, some current⟩]
    else if s.held = none then
      ((language.draw afterCurrent desired).map fun afterNext => ⟨afterNext, some current⟩).toList
    else []

def successors (language : CompactPatternUnionLanguage) (desired : PieceKind) (s : PlacementState) :
    List PlacementState :=
  PieceKind.standardTetrominoes.flatMap (pieceSuccessors language s desired)

theorem walk_singleton (d : DrawState) (piece : PieceKind) :
    walk language d [piece] = language.draw d piece := by
  rw [walk, foldlM_cons]
  cases language.draw d piece <;> rfl

theorem walk_pair (d : DrawState) (piece next : PieceKind) :
    walk language d [piece, next] = (language.draw d piece).bind (language.draw · next) := by
  rw [walk, foldlM_cons]
  cases language.draw d piece with
  | none => rfl
  | some d' => exact walk_singleton d' next

/-- What is tried are the steps of the hold machine on the pieces drawn. -/
theorem mem_pieceSuccessors {s t : PlacementState} {desired current : PieceKind} :
    t ∈ pieceSuccessors language s desired current ↔ ∃ word,
      SlotStep language.initial.holdPolicy s.held word desired t.held ∧
        walk language s.draw word = some t.draw ∧ word.head? = some current := by
  obtain ⟨d, held⟩ := s
  obtain ⟨d', held'⟩ := t
  rw [pieceSuccessors]
  constructor
  · intro ht
    split at ht
    · exact absurd ht not_mem_nil
    · rename_i afterCurrent hcurrent
      dsimp only at hcurrent
      have hone := (walk_singleton d current).trans hcurrent
      rcases mem_append.mp ht with hfirst | hsecond
      · split at hfirst
        · rename_i hdesired
          obtain ⟨rfl, rfl⟩ := PlacementState.mk.inj (mem_singleton.mp hfirst)
          exact ⟨[current], hdesired.1 ▸ .current held' current hdesired.2, hone, rfl⟩
        · exact absurd hfirst not_mem_nil
      · split at hsecond
        · exact absurd hsecond not_mem_nil
        · rename_i hpolicy
          split at hsecond
          · rename_i hheld
            obtain ⟨rfl, rfl⟩ := PlacementState.mk.inj (mem_singleton.mp hsecond)
            obtain rfl : held = some desired := hheld
            exact ⟨[current], .swapHeld desired current hpolicy, hone, rfl⟩
          · split at hsecond
            · rename_i hheld
              obtain rfl : held = none := hheld
              obtain ⟨afterNext, hnext, heq⟩ :=
                map_eq_some_iff.mp (mem_toList.mp hsecond)
              obtain ⟨rfl, rfl⟩ := PlacementState.mk.inj heq
              refine ⟨[current, desired], .storeCurrent current desired hpolicy, ?_, rfl⟩
              rw [walk_pair, hcurrent]
              exact hnext
            · exact absurd hsecond not_mem_nil
  · rintro ⟨word, hstep, hwalk, hhead⟩
    dsimp only at hstep hwalk
    cases hstep with
    | current _ _ hpolicy =>
      cases hhead
      rw [walk_singleton] at hwalk
      simp only [hwalk]
      rw [if_pos ⟨trivial, hpolicy⟩]
      exact mem_append_left _ mem_cons_self
    | swapHeld _ _ hpolicy =>
      cases hhead
      rw [walk_singleton] at hwalk
      simp only [hwalk]
      rw [if_neg hpolicy, if_pos trivial]
      exact mem_append_right _ mem_cons_self
    | storeCurrent _ _ hpolicy =>
      cases hhead
      rw [walk_pair, bind_eq_some_iff] at hwalk
      obtain ⟨afterCurrent, hcurrent, hnext⟩ := hwalk
      simp only [hcurrent]
      refine mem_append_right _ ?_
      rw [if_neg hpolicy, if_neg (by simp), if_pos trivial, hnext]
      exact mem_cons_self

theorem SlotStep.exists_head {policy : HoldPolicy} {h h' : Option PieceKind} {word : List PieceKind}
    {p : PieceKind} (step : SlotStep policy h word p h') : ∃ current, word.head? = some current := by
  cases step with
  | current | swapHeld | storeCurrent => exact ⟨_, rfl⟩

theorem mem_successors {s t : PlacementState} {desired : PieceKind} :
    t ∈ successors language desired s ↔
      ∃ word, SlotStep language.initial.holdPolicy s.held word desired t.held ∧
        walk language s.draw word = some t.draw := by
  have hall : ∀ piece : PieceKind, piece ∈ PieceKind.standardTetrominoes := by
    intro piece
    cases piece <;> decide
  simp only [successors, mem_flatMap, mem_pieceSuccessors]
  constructor
  · rintro ⟨current, -, word, hstep, hwalk, -⟩
    exact ⟨word, hstep, hwalk⟩
  · rintro ⟨word, hstep, hwalk⟩
    obtain ⟨current, hhead⟩ := hstep.exists_head
    exact ⟨current, hall current, word, hstep, hwalk, hhead⟩

include h in
theorem DrawSound.walk {d d' : DrawState}
    (hd : DrawSound language d) {pieces : List PieceKind} (hle : d.consumed ≤ language.sequencePieces)
    (hwalk : Supply.walk language d pieces = some d') :
    DrawSound language d' ∧ d'.consumed ≤ language.sequencePieces ∧
      d'.consumed = d.consumed + pieces.length := by
  induction pieces generalizing d with
  | nil =>
    cases hwalk
    exact ⟨hd, hle, rfl⟩
  | cons piece pieces ih =>
    rw [Supply.walk, foldlM_cons, bind_eq_bind, bind_eq_some_iff] at hwalk
    obtain ⟨next, hnext, hrest⟩ := hwalk
    have hdraws := draws_of_draw h hd hnext
    have hlt := hdraws.consumed_lt
    have heq := hdraws.consumed_eq
    obtain ⟨hsound, hle', hconsumed⟩ := ih hdraws.sound (by omega) hrest
    refine ⟨hsound, hle', ?_⟩
    rw [hconsumed, heq, length_cons]
    omega

include h in
theorem PlacementSound.successor {s t : PlacementState}
    (hs : PlacementSound language s) {desired : PieceKind} (ht : t ∈ successors language desired s) :
    PlacementSound language t := by
  obtain ⟨word, hstep, hwalk⟩ := mem_successors.mp ht
  obtain ⟨hsound, hle, -⟩ := hs.draw.walk h hs.consumed_le hwalk
  exact ⟨hsound, hle, hstep.hold_none hs.free⟩

/-- The places of a frontier, as an automaton that reads the placed pieces. -/
def placements (language : CompactPatternUnionLanguage) (start : PlacementState) :
    NFA PieceKind PlacementState where
  step s desired := {t | t ∈ successors language desired s}
  start := {start}
  accept := Set.univ

end Clearra.Proof.Supply
