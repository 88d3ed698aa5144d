import Clearra.Supply.HoldProjection
import Clearra.Proof.Supply.HoldRuns

/-!
# The closed form is the image of the runs

`reachableMultisets` against `HoldRun`, in both directions, for every queue, cursor, slot and
policy, but for three corners of the input space:

* a cursor that already lies beyond the queue gets the empty answer before anything else is
  looked at, also for `n = 0`, where the empty run exists;
* with hold disabled the slot is not read at all, while the automaton refuses to move from a
  forbidden-but-occupied slot;
* the cursor of the automaton is a `u16` and the closed form's is a `usize`.

`reachableMultisets_refines_runs` has exactly these three written into it.
-/

namespace Clearra.Proof.Supply

open Clearra.Supply List Option
open Clearra.Supply.PieceMultisetKey

/-- `key` is the multiset placed by some `n`-step run from `s`. -/
def PlacedByRun (queue : List PieceKind) (s : SupplyExecutionState) (n : Nat)
    (key : PieceMultisetKey) : Prop :=
  ∃ placed s', HoldRun queue s placed s' ∧ placed.length = n ∧ key = fromPieces placed

/-- The policy a `hold_enabled` flag stands for — the same reading `sequence_supply_transition`
    and `initial_hold_automaton_for` give it. -/
def policyOf (holdEnabled : Bool) : HoldPolicy := if holdEnabled then .allowed else .forbidden

/-! ## The options, as a set -/

theorem getPrefix_eq_some {available : List PieceKind} {n : Nat} (h : n ≤ available.length) :
    getPrefix available n = some (available.take n) := if_pos h

theorem getPrefix_eq_none {available : List PieceKind} {n : Nat} (h : ¬n ≤ available.length) :
    getPrefix available n = none := if_neg h

variable {key : PieceMultisetKey}

/-- `record_final_hold_options` over a pool given as a list: one key per piece left over. -/
theorem mem_recordFinalHoldOptions {pool drawnPrefix : List PieceKind} {initial : Option PieceKind}
    (hlen : pool.length ≤ 255) (hpool : ∀ y, (initial = some y ∨ y ∈ drawnPrefix) ↔ y ∈ pool) :
    key ∈ recordFinalHoldOptions (fromPieces pool) initial drawnPrefix ↔
      ∃ y ∈ pool, key = fromPieces (pool.erase y) := by
  unfold recordFinalHoldOptions
  simp only [mem_filterMap, PieceKind.mem_standardTetrominoes, true_and]
  constructor
  · rintro ⟨y, hy⟩
    split at hy
    · rename_i hmem
      have hyp := (hpool y).mp hmem
      rw [remove_fromPieces hlen, if_pos hyp] at hy
      exact ⟨y, hyp, (Option.some.inj hy).symm⟩
    · cases hy
  · rintro ⟨y, hyp, rfl⟩
    refine ⟨y, ?_⟩
    rw [if_pos ((hpool y).mpr hyp), remove_fromPieces hlen, if_pos hyp]

theorem fromPieces_of_perm_cons {pool placed : List PieceKind} {y : PieceKind}
    (hlen : pool.length ≤ 255) (h : pool.Perm (y :: placed)) :
    y ∈ pool ∧ fromPieces placed = fromPieces (pool.erase y) := by
  have hy : y ∈ pool := h.mem_iff.mpr mem_cons_self
  have hplaced : placed.length ≤ 255 := by
    have := h.length_eq
    rw [length_cons] at this
    omega
  have herase : (pool.erase y).Perm placed := by
    have := h.erase y
    rwa [erase_cons_head] at this
  refine ⟨hy, ((fromPieces_eq_iff_perm (le_trans length_erase_le hlen) hplaced).mpr herase).symm⟩

/-! ## The runs, as words taken from the queue -/

/-- The queue pieces from cursor `c` on, `d` of them. -/
def drawn (queue : List PieceKind) (c d : Nat) : List PieceKind := (queue.drop c).take d

variable {queue : List PieceKind}

theorem length_drawn {c d : Nat} (h : c + d ≤ queue.length) : (drawn queue c d).length = d := by
  rw [drawn, length_take, length_drop]
  omega

theorem drawn_prefix (queue : List PieceKind) (c d : Nat) : drawn queue c d <+: queue.drop c :=
  take_prefix d _

/-- A word taken at the cursor is as long as the part of the queue it came from. -/
theorem eq_drawn_of_isPrefix {queue word : List PieceKind} {c : Nat}
    (h : word <+: queue.drop c) (hc : c ≤ queue.length) :
    c + word.length ≤ queue.length ∧ word = drawn queue c word.length := by
  refine ⟨?_, prefix_iff_eq_take.mp h⟩
  have := h.length_le
  rw [length_drop] at this
  omega

section

variable {queue : List PieceKind} {s : SupplyExecutionState} {c n : Nat}

/-- The multisets placed by the runs on a queue are those placed by the slot machine on the words
    the queue starts with, as long as the cursor reaches to the end of the word. -/
theorem placedByRun_iff {policy : HoldPolicy} {h : Option PieceKind} (hs : SlotAt s policy c h)
    (hp : policy = .forbidden → h = none) {m : Nat}
    (hlong : ∀ word placed h', SlotRun policy h word placed h' → placed.length = n →
      word.length ≤ m) (hc : c ≤ queue.length) (hmax : queue.length < 2 ^ 16 ∨ c + m < 2 ^ 16) :
    PlacedByRun queue s n key ↔
      ∃ word placed h', SlotRun policy h word placed h' ∧ word <+: queue.drop c ∧
        placed.length = n ∧ key = fromPieces placed := by
  constructor
  · rintro ⟨placed, s', run, hn, hkey⟩
    obtain ⟨word, h', hrun, hword, _⟩ := HoldRun.slotRun run hs hp
    exact ⟨word, placed, h', hrun, hword, hn, hkey⟩
  · rintro ⟨word, placed, h', hrun, hword, hn, hkey⟩
    have hlen := (eq_drawn_of_isPrefix hword hc).1
    have hshort := hlong word placed h' hrun hn
    obtain ⟨s', run⟩ := hrun.exists_holdRun hs hp hword (by omega)
    exact ⟨placed, s', run, hn, hkey⟩

/-- Hold disabled: one multiset, that of the next `n` pieces, if the queue has them. -/
theorem placedByRun_forbidden_iff (hs : SlotAt s .forbidden c none) (hc : c ≤ queue.length)
    (hmax : queue.length < 2 ^ 16 ∨ c + n < 2 ^ 16) :
    PlacedByRun queue s n key ↔ c + n ≤ queue.length ∧ key = fromPieces (drawn queue c n) := by
  rw [placedByRun_iff (m := n) hs (fun _ => rfl) ?_ hc hmax]
  · constructor
    · rintro ⟨word, placed, h', run, hword, rfl, rfl⟩
      obtain ⟨-, rfl⟩ := run.of_forbidden
      obtain ⟨hlen, heq⟩ := eq_drawn_of_isPrefix hword hc
      exact ⟨hlen, by rw [← heq]⟩
    · rintro ⟨hlen, rfl⟩
      exact ⟨_, _, none, exists_slotRun_current (by simp) none _, drawn_prefix queue c n,
        length_drawn hlen, rfl⟩
  · rintro word placed h' run rfl
    rw [run.of_forbidden.2]

/-- Occupied slot: `n` draws, and any piece of the pool left over. -/
theorem placedByRun_occupied_iff {x : PieceKind} (hs : SlotAt s .allowed c (some x))
    (hc : c ≤ queue.length) (hn : n ≤ 254) (hmax : queue.length < 2 ^ 16 ∨ c + n < 2 ^ 16) :
    PlacedByRun queue s n key ↔
      c + n ≤ queue.length ∧
        ∃ y ∈ x :: drawn queue c n, key = fromPieces ((x :: drawn queue c n).erase y) := by
  have hpool : c + n ≤ queue.length → (x :: drawn queue c n).length ≤ 255 := by
    intro hlen
    rw [length_cons, length_drawn hlen]
    omega
  -- the slot stays occupied, so exactly as many pieces are taken as placed
  have hcount : ∀ {word placed h'}, SlotRun .allowed (some x) word placed h' →
      ∃ y, h' = some y ∧ word.length = placed.length := by
    intro word placed h' run
    obtain ⟨y, rfl⟩ := isSome_iff_exists.mp (run.isSome rfl)
    have := run.length_eq
    simp only [toList_some, length_cons, length_nil] at this
    exact ⟨y, rfl, by omega⟩
  rw [placedByRun_iff (m := n) hs (by simp) ?_ hc hmax]
  · constructor
    · rintro ⟨word, placed, h', run, hword, rfl, rfl⟩
      obtain ⟨y, rfl, hsame⟩ := hcount run
      obtain ⟨hlen, heq⟩ := eq_drawn_of_isPrefix hword hc
      rw [hsame] at hlen heq
      refine ⟨hlen, y, ?_⟩
      rw [← heq]
      refine fromPieces_of_perm_cons ?_ run.conserves
      rw [heq]
      exact hpool hlen
    · rintro ⟨hlen, y, hy, rfl⟩
      obtain ⟨placed, run⟩ := exists_slotRun_of_occupied (drawn queue c n) hy
      obtain ⟨_, _, hsame⟩ := hcount run
      refine ⟨_, placed, some y, run, drawn_prefix queue c n, ?_, ?_⟩
      · rw [← hsame, length_drawn hlen]
      · exact (fromPieces_of_perm_cons (hpool hlen) run.conserves).2.symm
  · rintro word placed h' run rfl
    obtain ⟨_, _, hsame⟩ := hcount run
    exact hsame.le

/-- Empty slot: either it stays empty and the next `n` are placed, or it is used and one of the
    next `n + 1` is left over. -/
theorem placedByRun_empty_iff (hs : SlotAt s .allowed c none) (hc : c ≤ queue.length) (hn : n ≤ 254)
    (hmax : queue.length < 2 ^ 16 ∨ c + n + 1 < 2 ^ 16) :
    PlacedByRun queue s n key ↔ (c + n ≤ queue.length ∧ key = fromPieces (drawn queue c n)) ∨
      (c + (n + 1) ≤ queue.length ∧
        ∃ y ∈ drawn queue c (n + 1), key = fromPieces ((drawn queue c (n + 1)).erase y)) := by
  rw [placedByRun_iff (m := n + 1) hs (by simp) ?_ hc hmax]
  · constructor
    · rintro ⟨word, placed, h', run, hword, rfl, rfl⟩
      obtain ⟨hlen, heq⟩ := eq_drawn_of_isPrefix hword hc
      have hcount := run.length_eq
      have hperm := run.conserves
      cases h' with
      | none =>
        simp only [toList_none, nil_append, length_nil, Nat.add_zero] at hcount hperm
        rw [hcount] at hlen heq
        refine Or.inl ⟨hlen, ?_⟩
        rw [← heq]
        exact ((fromPieces_eq_iff_perm (by omega) (by omega)).mpr hperm).symm
      | some y =>
        simp only [toList_none, toList_some, nil_append, cons_append,
          length_cons, length_nil, Nat.add_zero, Nat.zero_add] at hcount hperm
        rw [hcount] at hlen heq
        refine Or.inr ⟨hlen, y, ?_⟩
        rw [← heq]
        exact fromPieces_of_perm_cons (by omega) hperm
    · rintro (⟨hlen, rfl⟩ | ⟨hlen, y, hy, rfl⟩)
      · exact ⟨_, _, none, exists_slotRun_current (by simp) none _, drawn_prefix queue c n,
          length_drawn hlen, rfl⟩
      · obtain ⟨taken, rest, placed, h', run, htaken, hperm⟩ := exists_slotRun_of_empty _ hy
        refine ⟨taken, placed, h', run, ?_, ?_, ?_⟩
        · exact ⟨rest ++ (queue.drop c).drop (n + 1), by
            rw [← append_assoc, ← htaken]
            exact take_append_drop _ _⟩
        · have := hperm.length_eq
          rw [length_cons, length_drawn hlen] at this
          omega
        · exact (fromPieces_of_perm_cons (by rw [length_drawn hlen]; omega) hperm).2.symm
  · rintro word placed h' run rfl
    have := run.length_eq
    cases h' <;> simp at this <;> omega

end

/-! ## The closed form, in the same three cases -/

section

variable {queue : List PieceKind} {s : SupplyExecutionState} {n : Nat} {key : PieceMultisetKey}

theorem mem_reachableMultisets_disabled (hc : s.cursor.toNat ≤ queue.length) :
    key ∈ reachableMultisets queue n s false ↔
      s.cursor.toNat + n ≤ queue.length ∧ key = fromPieces (drawn queue s.cursor.toNat n) := by
  unfold reachableMultisets
  rw [if_neg (by omega)]
  by_cases hn : n ≤ (queue.drop s.cursor.toNat).length
  · simp only [Bool.not_false, if_true, getPrefix_eq_some hn, mem_singleton]
    rw [length_drop] at hn
    exact ⟨fun h => ⟨by omega, h⟩, fun h => h.2⟩
  · simp only [Bool.not_false, if_true, getPrefix_eq_none hn, not_mem_nil, false_iff]
    rw [length_drop] at hn
    exact fun h => absurd h.1 (by omega)

theorem mem_reachableMultisets_occupied {x : PieceKind} (hx : s.holdPiece = some x)
    (hc : s.cursor.toNat ≤ queue.length) (h254 : n ≤ 254) :
    key ∈ reachableMultisets queue n s true ↔
      s.cursor.toNat + n ≤ queue.length ∧
        ∃ y ∈ x :: drawn queue s.cursor.toNat n,
          key = fromPieces ((x :: drawn queue s.cursor.toNat n).erase y) := by
  unfold reachableMultisets
  rw [if_neg (by omega)]
  by_cases hn : n ≤ (queue.drop s.cursor.toNat).length
  · have hlen : s.cursor.toNat + n ≤ queue.length := by rw [length_drop] at hn; omega
    simp only [Bool.not_true, Bool.false_eq_true, if_false, hx, getPrefix_eq_some hn,
      Lib.mem_sortDedup, hlen, true_and]
    have hpool : (x :: drawn queue s.cursor.toNat n).length ≤ 255 := by
      rw [length_cons, length_drawn hlen]; omega
    have hkey : (fromPieces (drawn queue s.cursor.toNat n)).push x =
        fromPieces (x :: drawn queue s.cursor.toNat n) := by
      rw [push_fromPieces, fromPieces_eq_iff_perm (by simpa using hpool) hpool]
      exact perm_append_singleton _ _
    change key ∈ recordFinalHoldOptions ((fromPieces (drawn queue s.cursor.toNat n)).push x) _ _ ↔ _
    rw [hkey]
    refine mem_recordFinalHoldOptions hpool fun y => ?_
    rw [mem_cons, Option.some.injEq, eq_comm]
    rfl
  · simp only [Bool.not_true, Bool.false_eq_true, if_false, hx, getPrefix_eq_none hn,
      not_mem_nil, false_iff]
    rw [length_drop] at hn
    exact fun h => absurd h.1 (by omega)

theorem mem_reachableMultisets_empty (hx : s.holdPiece = none)
    (hc : s.cursor.toNat ≤ queue.length) (h254 : n ≤ 254) :
    key ∈ reachableMultisets queue n s true ↔
      (s.cursor.toNat + n ≤ queue.length ∧ key = fromPieces (drawn queue s.cursor.toNat n)) ∨
      (s.cursor.toNat + (n + 1) ≤ queue.length ∧
        ∃ y ∈ drawn queue s.cursor.toNat (n + 1),
          key = fromPieces ((drawn queue s.cursor.toNat (n + 1)).erase y)) := by
  unfold reachableMultisets
  rw [if_neg (by omega)]
  simp only [Bool.not_true, Bool.false_eq_true, if_false, hx, Lib.mem_sortDedup, mem_append]
  refine or_congr ?_ ?_
  · by_cases hn : n ≤ (queue.drop s.cursor.toNat).length
    · rw [getPrefix_eq_some hn, mem_singleton]
      rw [length_drop] at hn
      exact ⟨fun h => ⟨by omega, h⟩, fun h => h.2⟩
    · rw [getPrefix_eq_none hn]
      rw [length_drop] at hn
      exact ⟨by simp, fun h => absurd h.1 (by omega)⟩
  · by_cases hn : n + 1 ≤ (queue.drop s.cursor.toNat).length
    · have hlen : s.cursor.toNat + (n + 1) ≤ queue.length := by
        rw [length_drop] at hn; omega
      rw [getPrefix_eq_some hn]
      simp only [hlen, true_and]
      refine mem_recordFinalHoldOptions ?_ fun y => ?_
      · rw [length_take]; omega
      · simp
    · rw [getPrefix_eq_none hn]
      rw [length_drop] at hn
      exact ⟨by simp, fun h => absurd h.1 (by omega)⟩

end

theorem pairwise_reachableMultisets (queue : List PieceKind) (n : Nat) (s : SupplyExecutionState)
    (enabled : Bool) : (reachableMultisets queue n s enabled).Pairwise (· < ·) := by
  unfold reachableMultisets
  dsimp only
  split
  · exact List.Pairwise.nil
  · split
    · split
      · exact pairwise_singleton _ _
      · exact List.Pairwise.nil
    · split
      · split
        · exact List.Pairwise.nil
        · exact Lib.pairwise_lt_sortDedup _
      · exact Lib.pairwise_lt_sortDedup _

/-! ## The comparison -/

/-- The closed form against the runs from any state with the slot the closed form reads: the one
    there is, or none if hold is disabled. -/
theorem mem_reachableMultisets_iff_placedByRun {n : Nat} {s start : SupplyExecutionState}
    {enabled : Bool}
    (hs : SlotAt start (policyOf enabled) s.cursor.toNat (if enabled then s.holdPiece else none))
    (hc : s.cursor.toNat ≤ queue.length) (hn : enabled → n ≤ 254) (hrange : queue.length < 2 ^ 16 ∨
      s.cursor.toNat + n + (enabled && s.holdPiece.isNone).toNat < 2 ^ 16) :
    key ∈ reachableMultisets queue n s enabled ↔ PlacedByRun queue start n key := by
  cases enabled with
  | false =>
    have hs : SlotAt start .forbidden s.cursor.toNat none := hs
    rw [placedByRun_forbidden_iff hs hc (by omega)]
    exact mem_reachableMultisets_disabled hc
  | true =>
    cases hhold : s.holdPiece with
    | none =>
      rw [hhold] at hs hrange
      have hs : SlotAt start .allowed s.cursor.toNat none := hs
      rw [placedByRun_empty_iff hs hc (hn rfl) hrange]
      exact mem_reachableMultisets_empty hhold hc (hn rfl)
    | some x =>
      rw [hhold] at hs
      have hs : SlotAt start .allowed s.cursor.toNat (some x) := hs
      rw [placedByRun_occupied_iff hs hc (hn rfl) (by omega)]
      exact mem_reachableMultisets_occupied hhold hc (hn rfl)

/-- **The hold projection is exact.** For every queue, cursor and slot content, with hold enabled
    or disabled, and every `n ≤ 254`: the answer is strictly increasing, and its members are the
    multisets placed by the `n`-step runs that start inside the queue — with the slot read as
    empty when hold is disabled, and provided the cursor range covers the part of the queue that
    `n` placements can draw. -/
theorem reachableMultisets_refines_runs (queue : List PieceKind) (id : UInt64)
    (kind : PieceSourceKind) (cursor : UInt16) (hold : Option PieceKind) (epoch : UInt16)
    (key : UInt64) (obs : SupplyObservationIdentity) (prov : UInt64) (enabled : Bool) (n : Nat)
    (hn : n ≤ 254) (hrange : queue.length < 2 ^ 16 ∨
      cursor.toNat + n + (enabled && hold.isNone).toNat < 2 ^ 16) :
    let initial := SupplyExecutionState.withContract id kind cursor hold (policyOf enabled)
      epoch key obs prov
    let start := SupplyExecutionState.withContract id kind cursor (if enabled then hold else none)
      (policyOf enabled) epoch key obs prov
    (reachableMultisets queue n initial enabled).Pairwise (· < ·) ∧
      ∀ k, k ∈ reachableMultisets queue n initial enabled ↔
        cursor.toNat ≤ queue.length ∧ PlacedByRun queue start n k := by
  intro initial start
  refine ⟨pairwise_reachableMultisets _ _ _ _, fun k => ?_⟩
  by_cases hc : cursor.toNat ≤ queue.length
  · simp only [hc, true_and]
    exact mem_reachableMultisets_iff_placedByRun (s := initial) (slotAt_withContract ..) hc
      (fun _ => hn) hrange
  · simp only [hc, false_and, iff_false]
    unfold reachableMultisets
    rw [if_pos (show initial.cursor.toNat > queue.length from by
      change cursor.toNat > queue.length; omega)]
    exact not_mem_nil

theorem reachableMultisets_refines_runs_otI :
    let initial := SupplyExecutionState.withContract 1 .fixedQueue 0 none .allowed 0 0
      .fullQueueOracle 1
    (reachableMultisets [.O, .T, .I] 2 initial true).Pairwise (· < ·) ∧
      ∀ k, k ∈ reachableMultisets [.O, .T, .I] 2 initial true ↔
        0 ≤ 3 ∧ PlacedByRun [.O, .T, .I] initial 2 k :=
  reachableMultisets_refines_runs [.O, .T, .I] 1 .fixedQueue 0 none 0 0 .fullQueueOracle 1 true 2
    (by decide) (Or.inl (by decide))

/-! ### Where the unconditional statement fails

The three corners, one input each: a forbidden-but-occupied slot, a cursor beyond the queue with
nothing to place, and a queue that reaches past the last cursor. -/

/-- What the unconditional statement would say of one input. -/
def ProjectionIsImage (queue : List PieceKind) (cursor : UInt16) (hold : Option PieceKind)
    (enabled : Bool) (n : Nat) : Prop :=
  let s := SupplyExecutionState.withContract 1 .fixedQueue cursor hold (policyOf enabled) 0 0
    .fullQueueOracle 1
  ∀ k, k ∈ reachableMultisets queue n s enabled ↔ PlacedByRun queue s n k

theorem no_run_of_forbidden_occupied {s s' : SupplyExecutionState} {x p : PieceKind} {c : Nat}
    {placed : List PieceKind} (hs : SlotAt s .forbidden c (some x))
    (run : HoldRun queue s (p :: placed) s') : False := by
  cases run with
  | cons atCursor accepted rest =>
    unfold transition SupplyExecutionState.validate at accepted
    rw [if_pos (Or.inr ⟨hs.policy_eq, by rw [hs.hold_eq]; rfl⟩)] at accepted
    cases accepted

/-- From the last cursor there is no step at all. -/
theorem no_run_of_last_cursor {s s' : SupplyExecutionState} {p : PieceKind}
    {placed : List PieceKind} (hs : SlotAt s .forbidden (2 ^ 16 - 1) none)
    (run : HoldRun queue s (p :: placed) s') : False := by
  cases run with
  | cons atCursor accepted rest =>
    obtain ⟨word, h', first, -, hs'⟩ := hs.slotStep (fun _ => rfl) accepted
    have hpos : 0 < word.length := by cases first <;> simp
    have := hs'.lt
    omega

theorem projectionIsImage_fails :
    ¬ProjectionIsImage [.T] 0 (some .I) false 1 ∧
    ¬ProjectionIsImage [] 1 none true 0 ∧
    ¬ProjectionIsImage (List.replicate (2 ^ 16) .I) 65535 none false 1 := by
  refine ⟨fun h => ?_, fun h => ?_, fun h => ?_⟩
  · obtain ⟨placed, s', run, hlen, _⟩ := (h (fromPieces [.T])).mp (by decide)
    cases placed with
    | nil => simp at hlen
    | cons p rest => exact no_run_of_forbidden_occupied (slotAt_withContract ..) run
  · have := (h (fromPieces [])).mpr ⟨[], _, .nil _, rfl, rfl⟩
    exact absurd this (by decide)
  · have hlen : (List.replicate (2 ^ 16) PieceKind.I).length = 2 ^ 16 := length_replicate
    have hmem : fromPieces (drawn (List.replicate (2 ^ 16) .I) 65535 1) ∈
        reachableMultisets (List.replicate (2 ^ 16) .I) 1
          (.withContract 1 .fixedQueue 65535 none .forbidden 0 0 .fullQueueOracle 1) false :=
      (mem_reachableMultisets_disabled (by rw [hlen]; decide)).mpr ⟨by rw [hlen]; decide, rfl⟩
    obtain ⟨placed, s', run, hone, _⟩ := (h _).mp hmem
    cases placed with
    | nil => simp at hone
    | cons p rest => exact no_run_of_last_cursor (slotAt_withContract ..) run

end Clearra.Proof.Supply
