import Clearra.Proof.Supply.BagSequences
import Clearra.Proof.Supply.HoldProjection

/-!
# The symbolic family is the materialised one

The breadth-first pass over the bag automaton against the closed-form projection of every bag
sequence. In between stand the words: a frontier state at depth `n` is a run of the slot machine
of `n` placements on a word the bag can give (`frontierAt_ok`), and the closed form of a sequence
is the set of runs of the same machine on the words the sequence starts with.

Two corners keep the comparison from being unconditional.

* `HoldPolicy::Required` is carried into the bag automaton, where using the drawn piece is then
  refused; the closed form does not know the policy.
* The closed form adds up `n + 1` draws in saturating `u8` counters and then takes one piece away.
  From 255 placements on it takes it away from a counter that has stopped.

`reachableBagMultisets_eq_materialized` has these two as hypotheses;
`reachableBagMultisets_iff_run` holds without them, against the runs themselves.
-/

namespace Clearra.Proof.Supply

open Clearra.Supply Lib List
open Clearra.Supply.PieceMultisetKey

/-! ## Runs on a bag -/

/-- A run of the slot machine on a word the bag can give. -/
def BagReach (full : PieceMultisetKey) (policy : HoldPolicy) (b : BagPlacementState)
    (placed : List PieceKind) (b' : BagPlacementState) : Prop :=
  ∃ word c, SlotRun policy b.holdPiece word placed b'.holdPiece ∧ drawWord full b word = some c ∧
    b' = { c with holdPiece := b'.holdPiece }

/-- A state that can still make `m` placements without running out of cursor or epoch. -/
structure Live (full : PieceMultisetKey) (policy : HoldPolicy) (m : Nat) (b : BagPlacementState) :
    Prop where
  within : Within full b.bagRemainder
  slot : policy = .forbidden → b.holdPiece = none
  room : Room full b (m + if policy ≠ .forbidden ∧ b.holdPiece = none then 1 else 0)

section

variable {full : PieceMultisetKey} {policy : HoldPolicy} {b b' c : BagPlacementState}
  {p : PieceKind} {placed : List PieceKind} {m : Nat}

theorem Room.setHold {d : Nat} (h : Room full c d) (hold : Option PieceKind) :
    Room full { c with holdPiece := hold } d := ⟨h.cursor_lt, h.epoch_lt⟩

theorem Live.step (hbag : IsBag full) (hlive : Live full policy (m + 1) b)
    (hstep : BagStep full policy b p b') : Live full policy m b' := by
  obtain ⟨word, c, hslot, hdraw, hb'⟩ := hstep
  obtain ⟨hwithin, hslotNone, hroom⟩ := hlive
  have hc := drawWord_keeps hbag hwithin hdraw
  have hslot' := hslot.hold_none hslotNone
  refine ⟨by rw [hb']; exact hc.1, hslot', ?_⟩
  rw [hb']
  refine Room.setHold ?_ _
  refine Room.drawWord hbag hwithin (hroom.mono ?_) hdraw
  generalize b.holdPiece = h at hslot ⊢
  generalize b'.holdPiece = h' at hslot ⊢
  cases hslot with
  | current => simp only [length_singleton]; omega
  | swapHeld => simp only [length_singleton, reduceCtorEq, and_false, if_false]; omega
  | storeCurrent _ _ hf =>
    simp only [length_cons, length_nil, reduceCtorEq, and_false, if_false, and_true,
      if_pos hf, ne_eq]
    omega

theorem bagReach_nil_iff : BagReach full policy b [] b' ↔ b' = b := by
  constructor
  · rintro ⟨word, c, hrun, hdraw, hb'⟩
    generalize hh' : b'.holdPiece = h' at hrun hb'
    cases hrun with
    | nil =>
      cases hdraw
      exact hb'
  · rintro rfl
    exact ⟨[], b', .nil _, rfl, rfl⟩

theorem bagReach_snoc_iff : BagReach full policy b (placed ++ [p]) b' ↔
    ∃ m, BagReach full policy b placed m ∧ BagStep full policy m p b' := by
  constructor
  · rintro ⟨word, c, hrun, hdraw, hb'⟩
    obtain ⟨taken, rest, h', rfl, hfirst, hlast⟩ := hrun.exists_last
    rw [drawWord_append] at hdraw
    obtain ⟨d, hd, hrest⟩ := Option.bind_eq_some_iff.mp hdraw
    refine ⟨{ d with holdPiece := h' }, ⟨taken, d, hfirst, hd, rfl⟩, rest,
      { c with holdPiece := h' }, hlast, ?_, ?_⟩
    · rw [drawWord_setHold, hrest]
      rfl
    · rw [hb']
  · rintro ⟨m, ⟨taken, d, hfirst, hd, hm⟩, rest, e, hlast, hrest, hb'⟩
    rw [hm, drawWord_setHold] at hrest
    obtain ⟨c, hc, rfl⟩ := Option.map_eq_some_iff.mp hrest
    refine ⟨taken ++ rest, c, hfirst.snoc hlast, ?_, hb'⟩
    rw [drawWord_append, hd]
    exact hc

theorem Live.reach (hbag : IsBag full) : ∀ {placed : List PieceKind} {b' : BagPlacementState},
    Live full policy (m + placed.length) b → BagReach full policy b placed b' →
      Live full policy m b' := by
  intro placed
  induction placed using List.reverseRecOn generalizing m with
  | nil =>
    intro b' hlive hreach
    rw [bagReach_nil_iff.mp hreach]
    exact hlive
  | append_singleton placed p ih =>
    intro b' hlive hreach
    obtain ⟨mid, hmid, hlast⟩ := bagReach_snoc_iff.mp hreach
    refine Live.step hbag (ih ?_ hmid) hlast
    rwa [length_append, length_singleton, Nat.add_comm placed.length, ← Nat.add_assoc] at hlive

/-! ## The pass, without its memory -/

/-- The frontier at a depth. -/
def frontierAt (automaton : BagPlacementAutomaton) (initial : BagPlacementState) :
    Nat → Except SupplyExecutionError (List BagMultisetFrontierState)
  | 0 => .ok [⟨initial, .empty⟩]
  | depth + 1 => frontierAt automaton initial depth >>= nextFrontier automaton

variable {a : BagPlacementAutomaton}

theorem frontierChildren_ok (ha : a.inner.fullBag = some full) (hbag : IsBag full)
    {s : BagMultisetFrontierState}
    (hlive : Live full a.stateIdentity.holdPolicy (m + 1) s.supply) (p : PieceKind) :
    frontierChildren a s p = .ok
      ((sortDedup (bagBranches full a.stateIdentity.holdPolicy s.supply p)).map fun branch =>
        ⟨branch.nextState, s.placedMultiset.push branch.usedPiece⟩) := by
  obtain ⟨hwithin, hslot, hroom⟩ := hlive
  rw [frontierChildren, writeMatchingBranches_ok ha hbag hwithin hslot
    (hroom.mono (by omega)) (fun hf hnone => hroom.mono (by rw [if_pos ⟨hf, hnone⟩]; omega))]
  rfl

/-- **One depth**: the children are the states one step further. -/
theorem nextFrontier_ok (ha : a.inner.fullBag = some full) (hbag : IsBag full)
    {current : List BagMultisetFrontierState}
    (hlive : ∀ s ∈ current, Live full a.stateIdentity.holdPolicy (m + 1) s.supply) :
    ∃ next, nextFrontier a current = .ok next ∧ next.Nodup ∧
      ∀ t, t ∈ next ↔ ∃ s ∈ current, ∃ p,
        BagStep full a.stateIdentity.holdPolicy s.supply p t.supply ∧
          t.placedMultiset = s.placedMultiset.push p := by
  have hchildren : current.mapM (fun state => do
      let byPiece ← PieceKind.standardTetrominoes.mapM (frontierChildren a state)
      return byPiece.flatten) = .ok (current.map fun s =>
        (PieceKind.standardTetrominoes.map fun p =>
          (sortDedup (bagBranches full a.stateIdentity.holdPolicy s.supply p)).map
            fun branch => (⟨branch.nextState, s.placedMultiset.push branch.usedPiece⟩ :
              BagMultisetFrontierState)).flatten) := by
    refine mapM_eq_ok_map fun s hs => ?_
    rw [mapM_eq_ok_map fun p _ => frontierChildren_ok ha hbag (hlive s hs) p]
    rfl
  refine ⟨_, by rw [nextFrontier, hchildren]; rfl, nodup_sortDedup _, fun t => ?_⟩
  simp only [mem_sortDedup, ← flatMap_def, mem_flatMap, mem_map,
    PieceKind.mem_standardTetrominoes, true_and]
  constructor
  · rintro ⟨s, hs, p, branch, hbranch, rfl⟩
    obtain ⟨hused, hstep⟩ := bagStep_of_mem_bagBranches hbranch
    exact ⟨s, hs, p, hstep, by rw [hused]⟩
  · rintro ⟨s, hs, p, hstep, hplaced⟩
    obtain ⟨kind, hmem⟩ := exists_mem_bagBranches hstep
    exact ⟨s, hs, p, _, hmem, by rw [← hplaced]⟩

/-- **The frontier at a depth is the runs of that length.** -/
theorem frontierAt_ok (ha : a.inner.fullBag = some full) (hbag : IsBag full) {n : Nat}
    (hlive : Live full a.stateIdentity.holdPolicy n b) : ∀ depth ≤ n,
    ∃ frontier, frontierAt a b depth = .ok frontier ∧ frontier.Nodup ∧
      ∀ t, t ∈ frontier ↔ ∃ placed,
        BagReach full a.stateIdentity.holdPolicy b placed t.supply ∧ placed.length = depth ∧
          t.placedMultiset = fromPieces placed := by
  intro depth
  induction depth with
  | zero =>
    intro _
    refine ⟨_, rfl, nodup_singleton _, fun t => ?_⟩
    rw [mem_singleton]
    constructor
    · rintro rfl
      exact ⟨[], bagReach_nil_iff.mpr rfl, rfl, rfl⟩
    · rintro ⟨placed, hreach, hlen, hplaced⟩
      obtain rfl := length_eq_zero_iff.mp hlen
      rw [bagReach_nil_iff] at hreach
      rw [← hreach, show PieceMultisetKey.empty = t.placedMultiset from hplaced.symm]
  | succ depth ih =>
    intro hdepth
    obtain ⟨current, hcurrent, -, hmem⟩ := ih (by omega)
    have hcurrentLive : ∀ s ∈ current,
        Live full a.stateIdentity.holdPolicy (n - (depth + 1) + 1) s.supply := by
      intro s hs
      obtain ⟨placed, hreach, hlen, -⟩ := (hmem s).mp hs
      refine Live.reach hbag ?_ hreach
      rwa [hlen, show n - (depth + 1) + 1 + depth = n by omega]
    obtain ⟨next, hnext, hnodup, hmem'⟩ := nextFrontier_ok ha hbag hcurrentLive
    refine ⟨next, by rw [frontierAt, hcurrent]; exact hnext, hnodup, fun t => ?_⟩
    rw [hmem']
    constructor
    · rintro ⟨s, hs, p, hstep, hplaced⟩
      obtain ⟨placed, hreach, hlen, hkey⟩ := (hmem s).mp hs
      refine ⟨placed ++ [p], bagReach_snoc_iff.mpr ⟨_, hreach, hstep⟩, by simp [hlen], ?_⟩
      rw [hplaced, hkey, push_fromPieces]
    · rintro ⟨placed, hreach, hlen, hkey⟩
      obtain ⟨init, p, rfl⟩ : ∃ init p, placed = init ++ [p] :=
        ⟨_, _, (dropLast_append_getLast (l := placed) (by
          rintro rfl
          exact absurd hlen (by simp))).symm⟩
      obtain ⟨mid, hmid, hlast⟩ := bagReach_snoc_iff.mp hreach
      refine ⟨⟨mid, fromPieces init⟩, (hmem _).mpr ⟨init, hmid, by simpa using hlen, rfl⟩, p,
        hlast, ?_⟩
      rw [hkey, push_fromPieces]

/-- A state of the frontier is determined by its slot and what it left in the bag. -/
theorem bagReach_determined (hbag : IsBag full) (hb : Within full b.bagRemainder)
    {placed' : List PieceKind} {t t' : BagPlacementState} (h : BagReach full policy b placed t)
    (h' : BagReach full policy b placed' t') (hlen : placed.length = placed'.length)
    (hhold : t.holdPiece = t'.holdPiece)
    (hrem : ∀ q, t.bagRemainder.counts q = t'.bagRemainder.counts q) :
    t = t' ∧ placed.Perm placed' := by
  obtain ⟨word, c, hrun, hdraw, ht⟩ := h
  obtain ⟨word', c', hrun', hdraw', ht'⟩ := h'
  have hsame : word.length = word'.length := by
    have h1 := hrun.length_eq
    have h2 := hrun'.length_eq
    rw [hhold] at h1
    omega
  obtain ⟨hcursor, hepoch, opened, hcounts, hcounts'⟩ := drawWord_sync hbag word word' hsame hb hb
    rfl rfl rfl hdraw hdraw'
  have hc : c.bagRemainder = t.bagRemainder := by rw [ht]
  have hc' : c'.bagRemainder = t'.bagRemainder := by rw [ht']
  have hcount : ∀ q, word.count q = word'.count q := by
    intro q
    have h1 := hcounts q
    have h2 := hcounts' q
    rw [hc, hrem q] at h1
    rw [hc'] at h2
    omega
  have hbags : c.bagRemainder = c'.bagRemainder := by
    have hw := (drawWord_keeps hbag hb hdraw).1
    have hw' := (drawWord_keeps hbag hb hdraw').1
    rw [← hw.eq_fromCounts hbag, ← hw'.eq_fromCounts hbag]
    congr 1
    funext q
    rw [hc, hc', hrem q]
  refine ⟨?_, ?_⟩
  · rw [ht, ht', hhold]
    simp only [BagPlacementState.mk.injEq, true_and]
    exact ⟨hcursor, hepoch, hbags⟩
  · refine perm_iff_count.mpr fun q => ?_
    have h1 := hrun.conserves.count_eq q
    have h2 := hrun'.conserves.count_eq q
    rw [count_append, count_append, hhold] at h1
    rw [count_append, count_append] at h2
    have := hcount q
    omega

/-- On the standard bag no frontier has more than `8 · 2⁷` states. -/
theorem length_frontierAt_le (ha : a.inner.fullBag = some standardBag) {n : Nat}
    (hlive : Live standardBag a.stateIdentity.holdPolicy n b) {depth : Nat} (hdepth : depth ≤ n)
    {frontier : List BagMultisetFrontierState} (h : frontierAt a b depth = .ok frontier) :
    frontier.length ≤ 1024 := by
  obtain ⟨frontier', hfrontier, hnodup, hmem⟩ :=
    frontierAt_ok ha isBag_standardBag hlive depth hdepth
  obtain rfl : frontier = frontier' := Except.ok.inj (h.symm.trans hfrontier)
  let key : BagMultisetFrontierState → Option PieceKind × (PieceKind → Bool) := fun t =>
    (t.supply.holdPiece, fun q => t.supply.bagRemainder.counts q = 1)
  have hsmall : ∀ t ∈ frontier, ∀ q, t.supply.bagRemainder.counts q ≤ 1 := by
    intro t ht q
    obtain ⟨placed, ⟨word, c, -, hdraw, hsupply⟩, -⟩ := (hmem t).mp ht
    have := (drawWord_keeps isBag_standardBag hlive.within hdraw).1.le q
    rw [standardBag_counts] at this
    rw [hsupply]
    exact this
  have hinj : ∀ t ∈ frontier, ∀ t' ∈ frontier, key t = key t' → t = t' := by
    intro t ht t' ht' hkey
    obtain ⟨placed, hreach, hlen, hplaced⟩ := (hmem t).mp ht
    obtain ⟨placed', hreach', hlen', hplaced'⟩ := (hmem t').mp ht'
    obtain ⟨hhold, hrem⟩ := Prod.mk.inj hkey
    have hcounts : ∀ q, t.supply.bagRemainder.counts q = t'.supply.bagRemainder.counts q := by
      intro q
      have h1 := hsmall t ht q
      have h2 := hsmall t' ht' q
      have h3 := congrFun hrem q
      rw [decide_eq_decide] at h3
      omega
    obtain ⟨hsupply, hperm⟩ := bagReach_determined isBag_standardBag hlive.within hreach hreach'
      (hlen.trans hlen'.symm) hhold hcounts
    cases t
    cases t'
    simp only at hsupply hplaced hplaced'
    rw [hsupply, hplaced, hplaced', fromPieces_of_perm hperm]
  have hcard : (frontier.map key).length ≤ Fintype.card (Option PieceKind × (PieceKind → Bool)) :=
    (List.Nodup.map_on hinj hnodup).length_le_card
  have hpieces : Fintype.card PieceKind = 7 := rfl
  rw [length_map, Fintype.card_prod, Fintype.card_option, Fintype.card_fun, hpieces,
    Fintype.card_bool] at hcard
  exact hcard

end

end Clearra.Proof.Supply
