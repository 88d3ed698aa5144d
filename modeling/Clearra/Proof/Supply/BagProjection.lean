import Clearra.Proof.Supply.BagFamily

/-!
# What `reachable_bag_multisets` returns

The states it starts from, the memory it accounts for, and the comparison with the materialised
sequences. The memory has no influence on the multisets: whatever the allocator and the limit, a
pass that comes to its end has gone through the frontiers of `frontierAt`, and with an allocator
that grants what a frontier can need it does come to its end.
-/

namespace Clearra.Proof.Supply

open Clearra.Supply Lib SupplyExecutionAutomaton List PieceKind
open Clearra.Supply.PieceMultisetKey

/-! ## The initial state -/

/-- One more draw than placements, where an empty slot may be filled. -/
def extraDraw (enabled : Bool) (s : SupplyExecutionState) : Nat :=
  (enabled && s.holdPiece.isNone).toNat

theorem projectBagInitialState_ok {full : PieceMultisetKey} {s projected : SupplyExecutionState}
    {enabled : Bool} {n : Nat}
    (h : (⟨some full⟩ : SupplyExecutionAutomaton).projectBagInitialState s enabled n =
      .ok projected) :
    ∃ r, decodeInitialRemainder s.bagRemainderKey full (s.cursor = 0) = .ok r ∧
      s.holdEmpty = s.holdPiece.isNone ∧ (enabled = false → s.holdPiece = none) ∧
      projected = { s with
        sourceKind := .bagUniverse
        holdPolicy := projectedPolicy enabled s.holdPolicy
        bagRemainderKey := encodeRemainder r } ∧
      Room full ⟨s.cursor, s.holdPiece, s.bagEpoch, r⟩ (n + extraDraw enabled s) := by
  rw [projectBagInitialState] at h
  simp only [bind_eq_ok, refuseIf_eq_ok, not_or, not_and, not_not] at h
  obtain ⟨full', hfull, -, ⟨hempty, hslot⟩, r, hr, -, -, -, -, -, hcursor, -, -, -, hepoch, hret⟩ := h
  cases hfull
  cases hret
  refine ⟨r, hr, hempty, fun he => Option.not_isSome_iff_eq_none.mp (hslot he), rfl, ?_, ?_⟩
  · exact Nat.lt_of_not_le hcursor
  · refine lt_of_le_of_lt ?_ (Nat.lt_of_not_le hepoch)
    refine Nat.add_le_add_left ?_ _
    rw [maximumRefills]
    change (n + extraDraw enabled s - r.totalCount + (full.totalCount - 1)) / full.totalCount ≤
      if n + extraDraw enabled s - r.totalCount = 0 then 0
      else (n + extraDraw enabled s - r.totalCount + (full.totalCount - 1)) / full.totalCount
    split
    · rename_i hzero
      rw [hzero, Nat.zero_add]
      exact (Nat.div_eq_zero_iff.mpr (by omega)).le
    · exact le_rfl

/-! ## The memory -/

section Memory

variable {target : Target} {allocator : Allocator target} {limit : MemoryLimit}
  {a : BagPlacementAutomaton} {b : BagPlacementState}

theorem bagPassDepth_current {pass pass' : BagPass}
    (h : bagPassDepth allocator limit a pass = .ok pass') :
    nextFrontier a pass.current = .ok pass'.current := by
  simp only [bagPassDepth, bind_eq_ok, mapError_eq_ok] at h
  obtain ⟨_, _, _, _, _, _, _, _, _, _, _, _, next, hnext, hret⟩ := h
  cases hret
  exact hnext

/-- Whatever the allocator and the limit: a pass that comes to its end went through the
    frontiers. -/
theorem bagPassLoop_current : ∀ {n depth : Nat} {pass pass' : BagPass},
    frontierAt a b depth = .ok pass.current →
    bagPassLoop allocator limit a n pass = .ok pass' →
      frontierAt a b (depth + n) = .ok pass'.current := by
  intro n
  induction n with
  | zero =>
    rintro depth pass pass' hpass ⟨⟩
    exact hpass
  | succ n ih =>
    intro depth pass pass' hpass h
    obtain ⟨mid, hmid, hrest⟩ := bind_eq_ok.mp h
    have hnext : frontierAt a b (depth + 1) = .ok mid.current := by
      rw [frontierAt, hpass]
      exact bagPassDepth_current hmid
    have := ih hnext hrest
    rwa [Nat.add_right_comm, Nat.add_assoc] at this

/-- An allocator that grants every request of at most this many elements. -/
def GrantsUpTo (allocator : Allocator target) (elements : Nat) : Prop :=
  ∀ i asked, asked ≤ elements → (allocator.grant i asked).isSome

/-- The elements one depth can ask for: the children of 1024 states by seven pieces, eight each. -/
def passElements : Nat := 1024 * 7 * 8

theorem checkedBelow_ok {bound value : Nat} (h : value < bound) :
    checkedBelow bound value = .ok value := if_pos h

theorem mul_bytes_lt {target : Target} {capacity bytes : Nat} (hcap : capacity ≤ target.usizeMax)
    (hbytes : bytes < 2 ^ 32) : capacity * bytes < 2 ^ 96 := by
  have h64 := target.usizeMax_lt
  calc capacity * bytes ≤ capacity * 2 ^ 32 := Nat.mul_le_mul_left _ hbytes.le
    _ < 2 ^ 64 * 2 ^ 32 := (Nat.mul_lt_mul_right (by decide)).mpr (by omega)
    _ = 2 ^ 96 := by decide

section

variable (hgrants : GrantsUpTo allocator passElements)
include hgrants

theorem reserveBagCapacity_ok (bytes capacity required other : Nat) (hbytes : bytes < 2 ^ 32)
    (hcap : capacity ≤ target.usizeMax) (hrequired : required ≤ passElements)
    (hother : other < 2 ^ 98) (memory : BagMemory) :
    ∃ capacity' memory', reserveBagCapacity allocator none bytes capacity required other memory =
      .ok (capacity', memory') ∧ capacity' ≤ target.usizeMax := by
  have hgrow : ∃ capacity' calls, growBagCapacity allocator none bytes capacity required other
      memory.calls = .ok (capacity', calls) ∧ capacity' ≤ target.usizeMax := by
    rw [growBagCapacity]
    split
    · obtain ⟨granted, hgranted⟩ := Option.isSome_iff_exists.mp (hgrants memory.calls _ hrequired)
      have hle := allocator.granted_le hgranted
      have hreq := mul_bytes_lt ((allocator.le_of_grant hgranted).trans hle) hbytes
      rw [checkedBelow_ok (by omega)]
      simp only [bind, Except.bind]
      rw [checkedBelow_ok (by omega)]
      simp only [ensureBagMemoryLimit, hgranted]
      exact ⟨granted, _, rfl, hle⟩
    · exact ⟨capacity, _, rfl, hcap⟩
  obtain ⟨capacity', calls, hgrow, hle⟩ := hgrow
  have hlive := mul_bytes_lt hle hbytes
  rw [reserveBagCapacity, hgrow]
  simp only [bind, Except.bind, bagVecBytes]
  rw [checkedBelow_ok (by omega)]
  simp only []
  rw [checkedBelow_ok (by omega)]
  exact ⟨capacity', _, rfl, hle⟩

/-- The capacities of a pass are capacities of vectors. -/
structure SmallPass (target : Target) (pass : BagPass) : Prop where
  current_le : pass.currentCapacity ≤ target.usizeMax
  next_le : pass.nextCapacity ≤ target.usizeMax
  branch_le : pass.branchCapacity ≤ target.usizeMax

theorem bagPassDepth_ok {pass : BagPass}
    (hsmall : SmallPass target pass) (hlen : pass.current.length ≤ 1024)
    {next : List BagMultisetFrontierState} (hnext : nextFrontier a pass.current = .ok next) :
    ∃ pass', bagPassDepth allocator none a pass = .ok pass' ∧ SmallPass target pass' ∧
      pass'.current = next := by
  obtain ⟨hcurrent, hnextCap, hbranch⟩ := hsmall
  have husize := target.usizeMax_ge
  have hpieces : standardTetrominoes.length = 7 := rfl
  have hcurrentBytes := mul_bytes_lt hcurrent target.frontierStateBytes_lt
  have hbranchBytes := mul_bytes_lt hbranch target.branchBytes_lt
  have hrequired : pass.current.length * 7 * 8 ≤ passElements :=
    Nat.mul_le_mul_right _ (Nat.mul_le_mul_right _ hlen)
  obtain ⟨capacity, memory, hreserve, hcap⟩ := reserveBagCapacity_ok hgrants _ _ _
    (pass.currentCapacity * target.frontierStateBytes + pass.branchCapacity * target.branchBytes)
    target.frontierStateBytes_lt hnextCap hrequired (by omega) pass.memory
  refine ⟨⟨next, capacity, pass.currentCapacity, pass.branchCapacity, memory⟩, ?_,
    ⟨hcap, hcurrent, hbranch⟩, rfl⟩
  rw [bagPassDepth, hpieces, maxMatchingBranchesPerDesiredPiece,
    checkedBelow_ok (show pass.current.length * 7 < target.usizeMax + 1 by omega)]
  simp only [bind, Except.bind, bagVecBytes]
  rw [checkedBelow_ok (show pass.current.length * 7 * 8 < target.usizeMax + 1 by omega)]
  simp only []
  rw [checkedBelow_ok (show pass.currentCapacity * target.frontierStateBytes < 2 ^ 128 by omega),
    checkedBelow_ok (show pass.branchCapacity * target.branchBytes < 2 ^ 128 by omega)]
  simp only []
  rw [checkedBelow_ok (by omega)]
  simp only [hreserve, hnext]
  rfl

/-- On the standard bag the pass comes to its end. -/
theorem bagPassLoop_ok (ha : a.inner.fullBag = some standardBag) {total : Nat}
    (hlive : Live standardBag a.stateIdentity.holdPolicy total b) :
    ∀ {n depth : Nat} {pass : BagPass}, depth + n = total → SmallPass target pass →
      frontierAt a b depth = .ok pass.current →
      ∃ pass', bagPassLoop allocator none a n pass = .ok pass' ∧ SmallPass target pass' := by
  intro n
  induction n with
  | zero => intro depth pass _ hsmall _; exact ⟨pass, rfl, hsmall⟩
  | succ n ih =>
    intro depth pass hdepth hsmall hpass
    obtain ⟨next, hnext, -⟩ := frontierAt_ok ha isBag_standardBag hlive (depth + 1) (by omega)
    have hstep : nextFrontier a pass.current = .ok next := by
      rw [frontierAt, hpass] at hnext
      exact hnext
    obtain ⟨mid, hmid, hsmall', hcurrent⟩ := bagPassDepth_ok hgrants hsmall
      (length_frontierAt_le ha hlive (by omega) hpass) hstep
    have hnext' : frontierAt a b (depth + 1) = .ok mid.current := by
      rw [hcurrent]
      exact hnext
    obtain ⟨pass', hrest, hsmall''⟩ := ih (by omega) hsmall' hnext'
    exact ⟨pass', by rw [bagPassLoop, hmid]; exact hrest, hsmall''⟩

/-- With an allocator that grants what a frontier can need, the call returns. -/
theorem reachableBagMultisetsInternal_ok {bagPattern : List PieceKind} {n : Nat} {s : SupplyExecutionState} {enabled : Bool}
    (hinitial : BagPlacementAutomaton.fromInitialHold bagPattern s enabled n = .ok (a, b))
    (ha : a.inner.fullBag = some standardBag)
    (hlive : Live standardBag a.stateIdentity.holdPolicy n b) :
    ∃ r, reachableBagMultisetsInternal allocator bagPattern n s enabled none = .ok r := by
  obtain ⟨cap₁, mem₁, hres₁, hcap₁⟩ := reserveBagCapacity_ok hgrants _ 0 1 0
    target.frontierStateBytes_lt (Nat.zero_le _) (by decide)
    (by decide) ⟨0, 0⟩
  have hbytes₁ := mul_bytes_lt hcap₁ target.frontierStateBytes_lt
  obtain ⟨cap₂, mem₂, hres₂, hcap₂⟩ := reserveBagCapacity_ok hgrants _ 0
    bagBranchBufferCapacity (cap₁ * target.frontierStateBytes + 0 * target.frontierStateBytes)
    target.branchBytes_lt (Nat.zero_le _) (by decide) (by omega) mem₁
  obtain ⟨pass, hpass, hsmall⟩ := bagPassLoop_ok hgrants ha hlive (Nat.zero_add n)
    (show SmallPass target ⟨[⟨b, .empty⟩], cap₁, 0, cap₂, mem₂⟩ from ⟨hcap₁, Nat.zero_le _, hcap₂⟩)
    rfl
  have hlast : frontierAt a b (0 + n) = .ok pass.current := bagPassLoop_current rfl hpass
  rw [Nat.zero_add] at hlast
  have hcount := length_frontierAt_le ha hlive le_rfl hlast
  have hbytes₃ := mul_bytes_lt hsmall.current_le target.frontierStateBytes_lt
  obtain ⟨cap₃, mem₃, hres₃, hcap₃⟩ := reserveBagCapacity_ok hgrants _ 0
    pass.current.length (pass.currentCapacity * target.frontierStateBytes) target.multisetKeyBytes_lt
    (Nat.zero_le _) (hcount.trans (by decide)) (by omega) pass.memory
  have hbytes₄ := mul_bytes_lt hcap₃ target.multisetKeyBytes_lt
  refine ⟨(sortDedup (pass.current.map BagMultisetFrontierState.placedMultiset),
    ⟨max mem₃.peakBytes (cap₃ * target.multisetKeyBytes), cap₃ * target.multisetKeyBytes⟩), ?_⟩
  rw [reachableBagMultisetsInternal, hinitial]
  simp only [Except.mapError, bind, Except.bind, hres₁, bagVecBytes]
  rw [checkedBelow_ok (show cap₁ * target.frontierStateBytes < 2 ^ 128 by omega),
    checkedBelow_ok (show 0 * target.frontierStateBytes < 2 ^ 128 by omega)]
  simp only []
  rw [checkedBelow_ok (by omega)]
  simp only [hres₂]
  simp only [hpass]
  rw [checkedBelow_ok (show pass.currentCapacity * target.frontierStateBytes < 2 ^ 128 by omega)]
  simp only [hres₃]
  rw [checkedBelow_ok (show cap₃ * target.multisetKeyBytes < 2 ^ 128 by omega)]
  rfl

end

end Memory

/-! ## Words and sequences -/

section Family

variable {s projected : SupplyExecutionState} {enabled : Bool} {n : Nat}

/-- A state with nothing drawn and a full bag; `0` is how a source that was never drawn from
    spells it. -/
structure IsFreshBag (s : SupplyExecutionState) : Prop where
  cursor_eq : s.cursor = 0
  remainder : s.bagRemainderKey = 0 ∨ s.bagRemainderKey = encodeRemainder standardBag

/-- The unpacked state the pass starts from. -/
def freshState (s : SupplyExecutionState) : BagPlacementState :=
  ⟨s.cursor, s.holdPiece, s.bagEpoch, standardBag⟩

theorem IsFreshBag.decode (hs : IsFreshBag s) :
    decodeInitialRemainder s.bagRemainderKey standardBag (s.cursor = 0) = .ok standardBag := by
  rw [decodeInitialRemainder]
  rcases hs.remainder with hzero | hfull
  · rw [if_pos ⟨hzero, by simpa using hs.cursor_eq⟩]
  · have hwithin := isBag_standardBag.within
    split
    · rfl
    · rw [hfull, hwithin.decode isBag_standardBag]
      simp only [bind, Except.bind, hwithin.exceedsBag]
      rfl

/-- The contract of an accepted state: what is copied, what is read, and the room reserved. -/
theorem projected_of_accepted (hs : IsFreshBag s)
    (h : (⟨some standardBag⟩ : SupplyExecutionAutomaton).projectBagInitialState s enabled n =
      .ok projected) :
    BagPlacementAutomaton.fromInitialHold standardTetrominoes s enabled n =
        .ok (⟨⟨some standardBag⟩, projected⟩, freshState s) ∧
      SlotAt projected (projectedPolicy enabled s.holdPolicy) 0
        s.holdPiece ∧ (enabled = false → s.holdPiece = none) ∧
      Room standardBag (freshState s) (n + extraDraw enabled s) := by
  obtain ⟨r, hr, hempty, hslot, hprojected, hroom⟩ := projectBagInitialState_ok h
  obtain rfl : r = standardBag := Except.ok.inj (hr.symm.trans hs.decode)
  refine ⟨?_, ?_, hslot, hroom⟩
  · have hbag : forBag standardTetrominoes = .ok ⟨some standardBag⟩ := by decide
    have hdecode : decodeRemainder projected.bagRemainderKey = .ok standardBag := by
      rw [hprojected]
      exact isBag_standardBag.within.decode isBag_standardBag
    rw [BagPlacementAutomaton.fromInitialHold, hbag]
    simp only [bind, Except.bind, h, compactState, hdecode]
    rw [hprojected]
    rfl
  · rw [hprojected]
    exact ⟨rfl, by rw [hs.cursor_eq]; rfl, rfl, hempty⟩

theorem projectedPolicy_eq_forbidden {policy : HoldPolicy} :
    projectedPolicy enabled policy = .forbidden ↔ enabled = false := by
  rw [projectedPolicy]
  cases enabled with
  | false => simp
  | true => by_cases h : policy = .required <;> simp [h]

theorem live_initial {full r : PieceMultisetKey} (hr : Within full r)
    (hslot : enabled = false → s.holdPiece = none)
    (hroom : Room full ⟨s.cursor, s.holdPiece, s.bagEpoch, r⟩ (n + extraDraw enabled s)) :
    Live full (projectedPolicy enabled s.holdPolicy) n
      ⟨s.cursor, s.holdPiece, s.bagEpoch, r⟩ := by
  refine ⟨hr, fun h => hslot (projectedPolicy_eq_forbidden.mp h), hroom.mono ?_⟩
  simp only [ne_eq, projectedPolicy_eq_forbidden, extraDraw]
  cases enabled <;> cases s.holdPiece <;> simp

/-- A run takes no more than `extraDraw` pieces beyond those it places. -/
theorem length_le_of_slotRun {word placed : List PieceKind} {h' : Option PieceKind}
    (hslot : enabled = false → s.holdPiece = none)
    (run : SlotRun (projectedPolicy enabled s.holdPolicy) s.holdPiece
      word placed h') : word.length ≤ placed.length + extraDraw enabled s := by
  have hlen := run.length_eq
  have hle : h'.toList.length ≤ 1 := by cases h' <;> simp
  cases enabled with
  | false =>
    obtain ⟨rfl, -⟩ := run.of_forbidden
    omega
  | true =>
    cases hhold : s.holdPiece with
    | none =>
      rw [hhold] at hlen
      simp only [extraDraw, hhold, Option.isNone_none, Bool.and_self, Bool.toNat_true]
      simp only [Option.toList_none, length_nil] at hlen
      omega
    | some x =>
      rw [hhold] at hlen
      simp only [Option.toList_some, length_singleton] at hlen
      omega

/-- **The runs on words the bag can give are the runs on bag sequences.** A word is extended to a
    sequence of the full length, and the start of a sequence is a word. -/
theorem bagReach_iff_placedByRun (hprojected : SlotAt projected
      (projectedPolicy enabled s.holdPolicy) 0 s.holdPiece)
    (hslot : enabled = false → s.holdPiece = none)
    (hroom : Room standardBag (freshState s) (n + extraDraw enabled s)) {key : PieceMultisetKey} :
    (∃ t placed, BagReach standardBag
        (projectedPolicy enabled s.holdPolicy) (freshState s) placed t ∧
        placed.length = n ∧ key = fromPieces placed) ↔
      ∃ sequence, IsStandard7BagSequence sequence ∧
        sequence.length = n + extraDraw enabled s ∧ PlacedByRun sequence projected n key := by
  have hshort : n + extraDraw enabled s < 2 ^ 16 := by
    have := hroom.cursor_lt
    omega
  have hdrawn : ∀ word, (drawWord standardBag (freshState s) word).isSome ↔
      IsStandard7BagSequence word := fun word => by
    rw [drawWord_isSome_iff_fitsBags isBag_standardBag rfl, fitsBags_standardBag]
  have hruns : ∀ sequence : List PieceKind, sequence.length = n + extraDraw enabled s →
      (PlacedByRun sequence projected n key ↔
        ∃ word placed h', SlotRun
          (projectedPolicy enabled s.holdPolicy) s.holdPiece word placed
            h' ∧ word <+: sequence.drop 0 ∧ placed.length = n ∧ key = fromPieces placed) :=
    fun sequence hlen => placedByRun_iff (m := n + extraDraw enabled s) hprojected
      (fun h => hslot (projectedPolicy_eq_forbidden.mp h))
      (fun word placed h' run hn => by
        have := length_le_of_slotRun hslot run
        omega) (Nat.zero_le _) (Or.inl (by omega))
  constructor
  · rintro ⟨t, placed, ⟨word, c, run, hdraw, -⟩, hn, hkey⟩
    have hwithin := (drawWord_keeps isBag_standardBag isBag_standardBag.within hdraw).1
    have hlen := length_le_of_slotRun (s := s) hslot run
    obtain ⟨rest, hrest, hsome⟩ :=
      exists_drawWord isBag_standardBag (n + extraDraw enabled s - word.length) hwithin
    have hall : (word ++ rest).length = n + extraDraw enabled s := by
      rw [length_append]
      omega
    refine ⟨word ++ rest, ?_, hall, ?_⟩
    · rw [← hdrawn, drawWord_append, hdraw]
      exact hsome
    · rw [hruns _ hall]
      exact ⟨word, placed, _, run, prefix_append word rest, hn, hkey⟩
  · rintro ⟨sequence, hsequence, hlen, hrun⟩
    obtain ⟨word, placed, h', run, ⟨rest, hrest⟩, hn, hkey⟩ := (hruns sequence hlen).mp hrun
    rw [drop_zero] at hrest
    rw [← hdrawn, ← hrest, drawWord_append] at hsequence
    obtain ⟨c, hc⟩ : ∃ c, drawWord standardBag (freshState s) word = some c := by
      cases hdraw : drawWord standardBag (freshState s) word with
      | none =>
        rw [hdraw] at hsequence
        cases hsequence
      | some c => exact ⟨c, rfl⟩
    exact ⟨{ c with holdPiece := h' }, placed, ⟨word, c, run, hc, rfl⟩, hn, hkey⟩

/-! ## The result -/

/-- **What the pass returns**, for every allocator, limit and policy: the multisets placed by the
    runs of the automaton on the bag sequences of the length it may draw, in increasing order. -/
theorem reachableBagMultisets_iff_run (hs : IsFreshBag s)
    (haccepted : (⟨some standardBag⟩ : SupplyExecutionAutomaton).projectBagInitialState s enabled
      n = .ok projected) :
    ∃ family : List PieceMultisetKey, family.Pairwise (· < ·) ∧
      (∀ key, key ∈ family ↔ ∃ sequence, IsStandard7BagSequence sequence ∧
        sequence.length = n + extraDraw enabled s ∧ PlacedByRun sequence projected n key) ∧
      (∀ {target : Target} (allocator : Allocator target) (limit : MemoryLimit) {multisets report},
        reachableBagMultisetsInternal allocator standardTetrominoes n s enabled limit =
          .ok (multisets, report) → multisets = family) ∧
      ∀ {target : Target} (allocator : Allocator target), GrantsUpTo allocator passElements →
        ∃ report, reachableBagMultisetsInternal allocator standardTetrominoes n s enabled
          none = .ok (family, report) := by
  obtain ⟨hinitial, hprojected, hslot, hroom⟩ := projected_of_accepted hs haccepted
  let automaton : BagPlacementAutomaton := ⟨⟨some standardBag⟩, projected⟩
  have hlive : Live standardBag automaton.stateIdentity.holdPolicy n (freshState s) := by
    change Live standardBag projected.holdPolicy n _
    rw [hprojected.policy_eq]
    exact live_initial isBag_standardBag.within hslot hroom
  obtain ⟨frontier, hfrontier, -, hmem⟩ :=
    frontierAt_ok (a := automaton) rfl isBag_standardBag hlive n le_rfl
  have hexact : ∀ {target : Target} (allocator : Allocator target) (limit : MemoryLimit)
      {multisets report}, reachableBagMultisetsInternal allocator standardTetrominoes n s
        enabled limit = .ok (multisets, report) →
      multisets = sortDedup (frontier.map BagMultisetFrontierState.placedMultiset) := by
    intro target allocator limit multisets report h
    simp only [reachableBagMultisetsInternal, hinitial, bind_eq_ok, mapError_eq_ok] at h
    obtain ⟨_, hpair, _, _, _, _, _, _, _, _, _, _, pass, hpass, _, _, _, _, _, _, hret⟩ := h
    cases hpair
    have hlast : frontierAt automaton (freshState s) (0 + n) = .ok pass.current :=
      bagPassLoop_current rfl hpass
    rw [Nat.zero_add, hfrontier] at hlast
    rw [Except.ok.inj hlast]
    exact (Prod.mk.inj (Except.ok.inj hret)).1.symm
  refine ⟨_, pairwise_lt_sortDedup _, fun key => ?_, hexact, ?_⟩
  · rw [mem_sortDedup, mem_map, ← bagReach_iff_placedByRun hprojected hslot hroom]
    have hpolicy : automaton.stateIdentity.holdPolicy =
        projectedPolicy enabled s.holdPolicy := hprojected.policy_eq
    constructor
    · rintro ⟨t, ht, rfl⟩
      obtain ⟨placed, hreach, hlen, hkey⟩ := (hmem t).mp ht
      rw [hpolicy] at hreach
      exact ⟨t.supply, placed, hreach, hlen, hkey⟩
    · rintro ⟨t, placed, hreach, hlen, rfl⟩
      rw [← hpolicy] at hreach
      exact ⟨⟨t, fromPieces placed⟩, (hmem _).mpr ⟨placed, hreach, hlen, rfl⟩, rfl⟩
  · intro target allocator hgrants
    suffices ∃ r, reachableBagMultisetsInternal allocator standardTetrominoes n s enabled
        none = .ok r by
      obtain ⟨⟨multisets, report⟩, hr⟩ := this
      exact ⟨report, by rw [hr, hexact allocator none hr]⟩
    exact reachableBagMultisetsInternal_ok hgrants hinitial rfl hlive

/-- **The symbolic family is the materialised one**: for every number of placements and every
    accepted fresh state, the multisets of the pass are those the closed form finds on some
    standard bag sequence of `n` pieces, or `n + 1` if an empty slot may be filled — hold not being
    required, and at most 254 placements where it is enabled. The list does not depend on the
    allocator nor on a memory limit. -/
theorem reachableBagMultisets_eq_materialized (n : Nat) (enabled : Bool)
    (s projected : SupplyExecutionState) (hs : IsFreshBag s)
    (haccepted : (⟨some standardBag⟩ : SupplyExecutionAutomaton).projectBagInitialState s enabled
      n = .ok projected) (hpolicy : enabled → s.holdPolicy ≠ .required) (hn : enabled → n ≤ 254) :
    ∃ family : List PieceMultisetKey, family.Pairwise (· < ·) ∧
      (∀ key, key ∈ family ↔ ∃ sequence, IsStandard7BagSequence sequence ∧
        sequence.length = n + extraDraw enabled s ∧ key ∈ reachableMultisets sequence n s enabled) ∧
      (∀ {target : Target} (allocator : Allocator target), GrantsUpTo allocator passElements →
        reachableBagMultisets allocator standardTetrominoes n s enabled = .ok family) ∧
      (∀ {target : Target} (allocator : Allocator target) {multisets},
        reachableBagMultisets allocator standardTetrominoes n s enabled =
          .ok multisets → multisets = family) ∧
      ∀ {target : Target} (allocator : Allocator target) (already maximum : Nat)
        {multisets report}, reachableBagMultisetsWithMemoryLimit allocator
          standardTetrominoes n s enabled already maximum = .ok (multisets, report) →
        multisets = family := by
  obtain ⟨family, hsorted, hmem, hexact, htotal⟩ := reachableBagMultisets_iff_run hs haccepted
  obtain ⟨-, hprojected, hslot, hroom⟩ := projected_of_accepted hs haccepted
  have hslotAt : SlotAt projected (policyOf enabled) s.cursor.toNat
      (if enabled then s.holdPiece else none) := by
    rw [hs.cursor_eq]
    cases enabled with
    | false =>
      rw [hslot rfl] at hprojected
      exact hprojected
    | true =>
      rw [projectedPolicy, if_pos rfl, if_neg (hpolicy rfl)] at hprojected
      exact hprojected
  have hreturns : ∀ {target : Target} (allocator : Allocator target) {multisets},
      reachableBagMultisets allocator standardTetrominoes n s enabled =
        .ok multisets → multisets = family := by
    intro target allocator multisets h
    rw [reachableBagMultisets] at h
    split at h
    · rename_i found report hfound
      rw [← Except.ok.inj h]
      exact hexact allocator none hfound
    · cases h
    · cases h
  refine ⟨family, hsorted, fun key => ?_, ?_, hreturns, fun allocator already maximum _ _ h =>
    hexact allocator _ h⟩
  · rw [hmem]
    refine exists_congr fun sequence => and_congr_right fun _ => and_congr_right fun hlen => ?_
    have hshort := hroom.cursor_lt
    refine (mem_reachableMultisets_iff_placedByRun hslotAt ?_ hn ?_).symm
    · rw [hs.cursor_eq]
      exact Nat.zero_le _
    · exact Or.inl (by omega)
  · intro target allocator hgrants
    obtain ⟨report, hreport⟩ := htotal allocator hgrants
    rw [reachableBagMultisets, hreport]

end Family

/-! ### A build target, and where the unconditional statement fails -/

/-- A 32-bit target. -/
def wasmTarget : Target where
  usizeMax := 2 ^ 32 - 1
  frontierStateBytes := 22
  branchBytes := 16
  multisetKeyBytes := 8
  usizeMax_ge := by decide
  usizeMax_lt := by decide
  frontierStateBytes_lt := by decide
  branchBytes_lt := by decide
  multisetKeyBytes_lt := by decide

/-- An allocator that grants exactly what is asked for. -/
def exactAllocator (target : Target) : Allocator target where
  grant := fun _ asked => if asked ≤ target.usizeMax then some asked else none
  le_of_grant := by
    intro i asked granted h
    split at h
    · exact (Option.some.inj h).le
    · cases h
  granted_le := by
    intro i asked granted h
    split at h
    · rename_i hle
      exact (Option.some.inj h) ▸ hle
    · cases h

theorem exactAllocator_grants : GrantsUpTo (exactAllocator wasmTarget) passElements := by
  intro i asked hasked
  have : asked ≤ wasmTarget.usizeMax := hasked.trans (by decide)
  simp [exactAllocator, this]

/-- A state nothing has been drawn from. -/
def freshStart (hold : Option PieceKind) (policy : HoldPolicy) : SupplyExecutionState :=
  .withContract 1 .materializedPatternUniverse 0 hold policy 0 0 .fullQueueOracle 1

theorem isFreshBag_freshStart (hold : Option PieceKind) (policy : HoldPolicy) :
    IsFreshBag (freshStart hold policy) := ⟨rfl, Or.inl rfl⟩

/-- The contract `freshStart` is read under, hold enabled. -/
def freshProjected (hold : Option PieceKind) (policy : HoldPolicy) : SupplyExecutionState :=
  .withContract 1 .bagUniverse 0 hold (projectedPolicy true policy) 0
    (encodeRemainder standardBag) .fullQueueOracle 1

theorem reachableBagMultisets_eq_materialized_three :
    ∃ family : List PieceMultisetKey, family.Pairwise (· < ·) ∧
      (∀ key, key ∈ family ↔ ∃ sequence, IsStandard7BagSequence sequence ∧
        sequence.length = 4 ∧ key ∈ reachableMultisets sequence 3 (freshStart none .allowed) true) ∧
      reachableBagMultisets (exactAllocator wasmTarget) standardTetrominoes 3
        (freshStart none .allowed) true = .ok family := by
  obtain ⟨family, hsorted, hmem, htotal, -⟩ := reachableBagMultisets_eq_materialized 3 true
    (freshStart none .allowed) (freshProjected none .allowed) (isFreshBag_freshStart _ _) rfl
    (by decide) (by decide)
  exact ⟨family, hsorted, hmem, htotal _ exactAllocator_grants⟩

/-- What the unconditional statement would say of one input, hold enabled. -/
def SymbolicIsMaterialized (n : Nat) (s : SupplyExecutionState) : Prop :=
  ∀ {target : Target} (allocator : Allocator target) {family : List PieceMultisetKey},
    reachableBagMultisets allocator standardTetrominoes n s true = .ok family →
      ∀ key, key ∈ family ↔ ∃ sequence, IsStandard7BagSequence sequence ∧
        sequence.length = n + extraDraw true s ∧ key ∈ reachableMultisets sequence n s true

/-- Past 254 placements the closed form offers a key with one piece too few: all the draws, in a
    counter that has stopped at 255, minus one. -/
theorem exists_mem_of_saturated {sequence : List PieceKind} {s : SupplyExecutionState} {n : Nat}
    (hcursor : s.cursor = 0) (hhold : s.holdPiece = none) (hlen : sequence.length = n + 1)
    (hn : 255 ≤ n) :
    ∃ key ∈ reachableMultisets sequence n s true, key.totalCount = 254 := by
  obtain ⟨y, rest, rfl⟩ : ∃ y rest, sequence = y :: rest := by
    cases sequence with
    | nil => simp at hlen
    | cons y rest => exact ⟨y, rest, rfl⟩
  have hcount : (fromPieces (y :: rest)).counts y ≠ 0 := by
    rw [counts_fromPieces_min, count_cons_self]
    omega
  have htotal : (fromPieces (y :: rest)).totalCount = 255 := by
    rw [totalCount_fromPieces_min, hlen]
    omega
  have htake : (y :: rest).take (n + 1) = y :: rest := take_of_length_le hlen.le
  refine ⟨⟨Function.update (fromPieces (y :: rest)).counts y
    ((fromPieces (y :: rest)).counts y - 1), (fromPieces (y :: rest)).totalCount - 1⟩, ?_, ?_⟩
  · rw [reachableMultisets, hcursor]
    simp only [UInt16.toNat_zero, drop_zero, Bool.not_true, Bool.false_eq_true, if_false,
      hhold, Nat.not_lt_zero, mem_sortDedup, gt_iff_lt, getPrefix_eq_some hlen.ge, htake]
    refine mem_append_right _ (mem_filterMap.mpr ⟨y, by simp, ?_⟩)
    rw [if_pos (Or.inr mem_cons_self), remove, if_neg hcount]
  · change (fromPieces (y :: rest)).totalCount - 1 = 254
    rw [htotal]

/-- The two corners: a required hold, and 255 placements. -/
theorem symbolicIsMaterialized_fails :
    ¬SymbolicIsMaterialized 1 (freshStart (some .I) .required) ∧
    ¬SymbolicIsMaterialized 255 (freshStart none .allowed) := by
  refine ⟨fun h => ?_, fun h => ?_⟩
  · -- the held piece is the one placed, and the closed form offers the drawn one too
    have hrun : reachableBagMultisets (exactAllocator wasmTarget) standardTetrominoes 1
        (freshStart (some .I) .required) true = .ok [fromPieces [.I]] := by decide +kernel
    have hfamily : fromPieces [.O] ∈ [fromPieces [.I]] := by
      refine (h _ hrun _).mpr ⟨[.O], ?_, rfl, ?_⟩
      · intro k
        cases k with
        | zero => simp
        | succ k =>
          rw [drop_of_length_le (by rw [length_singleton]; omega)]
          simp
      · refine (mem_reachableMultisets_occupied (s := freshStart (some .I) .required) rfl
          (Nat.zero_le _) (by decide)).mpr ⟨le_rfl, .I, mem_cons_self, rfl⟩
    exact absurd hfamily (by decide)
  · obtain ⟨family, -, hmem, -, htotal⟩ := reachableBagMultisets_iff_run
      (isFreshBag_freshStart none .allowed)
      (show (⟨some standardBag⟩ : SupplyExecutionAutomaton).projectBagInitialState _ true 255 =
        .ok (freshProjected none .allowed) from rfl)
    obtain ⟨report, hreport⟩ := htotal _ exactAllocator_grants
    obtain ⟨sequence, hlen, hdrawn⟩ := exists_drawWord isBag_standardBag 256
      (b := freshState (freshStart none .allowed)) isBag_standardBag.within
    rw [drawWord_isSome_iff_fitsBags isBag_standardBag rfl, fitsBags_standardBag] at hdrawn
    -- the key the closed form gets by taking one piece off a counter that has stopped
    obtain ⟨key, hkey, hcount⟩ : ∃ key ∈ reachableMultisets sequence 255 (freshStart none .allowed)
        true, key.totalCount = 254 := by
      exact exists_mem_of_saturated rfl rfl hlen (by decide)
    have hfamily : key ∈ family :=
      (h (exactAllocator wasmTarget) (by rw [reachableBagMultisets, hreport]) _).mpr
        ⟨sequence, hdrawn, hlen, hkey⟩
    obtain ⟨sequence', -, -, placed, s', run, hplaced, rfl⟩ := (hmem _).mp hfamily
    rw [totalCount_fromPieces hplaced.le, hplaced] at hcount
    exact absurd hcount (by decide)

end Clearra.Proof.Supply
