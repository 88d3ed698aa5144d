import Clearra.Proof.Supply.SlotRuns
import Clearra.Lib.Result

/-!
# The runs of the hold automaton read the queue word by word

`transition` on a queue is the slot machine of `SlotRuns` with the word read off the queue at the
cursor: an accepted transition is a `SlotStep` on a prefix of what lies ahead, and every such
`SlotStep` is accepted as long as the cursor has room.

`SlotAt` forgets the six fields of a state that `transition` only copies. The cursor is a `u16`: a
run that would have to move it past 65535 does not exist, whatever the queue holds there.
-/

namespace Clearra.Proof.Supply

open Clearra.Supply List

/-- What `transition` looks at: the policy, the cursor and the (consistent) hold slot. -/
structure SlotAt (s : SupplyExecutionState) (policy : HoldPolicy) (c : Nat)
    (h : Option PieceKind) : Prop where
  policy_eq : s.holdPolicy = policy
  cursor_eq : s.cursor.toNat = c
  hold_eq : s.holdPiece = h
  empty_eq : s.holdEmpty = h.isNone

theorem slotAt_withContract (id : UInt64) (kind : PieceSourceKind) (cursor : UInt16)
    (hold : Option PieceKind) (policy : HoldPolicy) (epoch : UInt16) (key : UInt64)
    (obs : SupplyObservationIdentity) (prov : UInt64) :
    SlotAt (.withContract id kind cursor hold policy epoch key obs prov) policy cursor.toNat hold :=
  ⟨rfl, rfl, rfl, rfl⟩

variable {s : SupplyExecutionState} {policy : HoldPolicy} {c : Nat} {h : Option PieceKind}

theorem SlotAt.lt (hs : SlotAt s policy c h) : c < 2 ^ 16 := by
  rw [← hs.cursor_eq]
  exact s.cursor.toNat_lt

theorem SlotAt.validate (hs : SlotAt s policy c h) (hp : policy = .forbidden → h = none) :
    s.validate = .ok () := by
  have hfalse : ¬(s.holdEmpty ≠ s.holdPiece.isNone ∨
      (s.holdPolicy = .forbidden ∧ s.holdPiece.isSome)) := by
    rw [hs.empty_eq, hs.hold_eq, hs.policy_eq]
    rintro (hne | ⟨hf, hsome⟩)
    · exact hne rfl
    · rw [hp hf] at hsome
      simp at hsome
  rw [SupplyExecutionState.validate, if_neg hfalse]

theorem checkedAdvance_ok {c k c' : UInt16} (h : checkedAdvance c k = .ok c') :
    c'.toNat = c.toNat + k.toNat := by
  unfold checkedAdvance at h
  split at h
  · rename_i hlt
    cases h
    rw [UInt16.toNat_add, Nat.mod_eq_of_lt hlt]
  · cases h

theorem exists_checkedAdvance {c k : UInt16} (h : c.toNat + k.toNat < 2 ^ 16) :
    ∃ c', checkedAdvance c k = .ok c' ∧ c'.toNat = c.toNat + k.toNat := by
  refine ⟨c + k, ?_, ?_⟩
  · rw [checkedAdvance, if_pos h]
  · rw [UInt16.toNat_add, Nat.mod_eq_of_lt h]

/-! ## One step

`transition` on a state whose slot is known is a straight-line computation, so each branch gets
its value as an equation first; the inversion and the existence statements below are then read
off the same three lines. -/

theorem SlotAt.transition_current (hs : SlotAt s policy c h) (hreq : policy ≠ .required)
    (hp : policy = .forbidden → h = none) (current : PieceKind) (next : Option PieceKind) :
    transition s .current current next = (checkedAdvance s.cursor 1).map fun cursor =>
      step s { s with cursor } current current none 1 .current := by
  unfold transition
  rw [hs.validate hp, hs.policy_eq]
  simp only [hreq, if_false, bind, Except.bind, pure, Except.pure]
  cases checkedAdvance s.cursor 1 <;> rfl

theorem SlotAt.transition_swapHeld (hs : SlotAt s policy c h) (hp : policy ≠ .forbidden)
    (current : PieceKind) (next : Option PieceKind) :
    transition s .swapHeld current next =
      match h with
      | none => .error .missingHeldPiece
      | some held => (checkedAdvance s.cursor 1).map fun cursor =>
          step s ({ s with cursor }.setHoldPiece (some current)) held current none 1
            .swapHeld := by
  unfold transition
  rw [hs.validate (fun hf => absurd hf hp), hs.policy_eq, hs.hold_eq]
  simp only [hp, if_false, bind, Except.bind, pure, Except.pure]
  cases h with
  | none => rfl
  | some held => cases checkedAdvance s.cursor 1 <;> rfl

theorem SlotAt.transition_storeCurrent (hs : SlotAt s policy c h) (hp : policy ≠ .forbidden)
    (current : PieceKind) (next : Option PieceKind) :
    transition s .storeCurrent current next =
      match h, next with
      | some _, _ => .error .holdSlotOccupied
      | none, none => .error .missingNextPiece
      | none, some p => (checkedAdvance s.cursor 2).map fun cursor =>
          step s ({ s with cursor }.setHoldPiece (some current)) p current (some p) 2
            .storeCurrent := by
  unfold transition
  rw [hs.validate (fun hf => absurd hf hp), hs.policy_eq, hs.hold_eq]
  simp only [hp, if_false, bind, Except.bind, pure, Except.pure]
  cases h with
  | some held => rfl
  | none =>
    cases next with
    | none => rfl
    | some p =>
      simp only [Option.isSome_none, Bool.false_eq_true, if_false]
      cases checkedAdvance s.cursor 2 <;> rfl

theorem SlotAt.transition_forbidden (hs : SlotAt s .forbidden c none) {branch : SupplyBranchKind}
    (hb : branch ≠ .current) (current : PieceKind) (next : Option PieceKind) :
    transition s branch current next = .error .holdForbidden := by
  unfold transition
  rw [hs.validate (fun _ => rfl), hs.policy_eq]
  cases branch with
  | current => exact absurd rfl hb
  | swapHeld | storeCurrent => rfl

theorem SlotAt.transition_required (hs : SlotAt s .required c h) (current : PieceKind)
    (next : Option PieceKind) : transition s .current current next = .error .holdRequired := by
  unfold transition
  rw [hs.validate (by simp), hs.policy_eq]
  rfl

/-- **An accepted transition is a step of the slot machine** on what lies ahead. -/
theorem SlotAt.slotStep (hs : SlotAt s policy c h) (hp : policy = .forbidden → h = none)
    {branch : SupplyBranchKind} {current : PieceKind} {next : Option PieceKind}
    {taken : SupplyExecutionStep} (ht : transition s branch current next = .ok taken) :
    ∃ word h', SlotStep policy h word taken.usedPiece h' ∧ word <+: current :: next.toList ∧
      SlotAt taken.nextState policy (c + word.length) h' := by
  cases branch with
  | current =>
    by_cases hreq : policy = .required
    · subst hreq
      rw [hs.transition_required] at ht
      cases ht
    · rw [hs.transition_current hreq hp, Lib.map_eq_ok] at ht
      obtain ⟨cursor, hadv, rfl⟩ := ht
      have hcur := checkedAdvance_ok hadv
      rw [hs.cursor_eq] at hcur
      exact ⟨[current], h, .current h current hreq, prefix_append [current] next.toList,
        hs.policy_eq, hcur, hs.hold_eq, hs.empty_eq⟩
  | swapHeld =>
    by_cases hf : policy = .forbidden
    · subst hf
      have := hp rfl
      subst this
      rw [hs.transition_forbidden (by simp)] at ht
      cases ht
    · rw [hs.transition_swapHeld hf] at ht
      cases h with
      | none => cases ht
      | some held =>
        rw [Lib.map_eq_ok] at ht
        obtain ⟨cursor, hadv, rfl⟩ := ht
        have hcur := checkedAdvance_ok hadv
        rw [hs.cursor_eq] at hcur
        exact ⟨[current], some current, .swapHeld held current hf,
          prefix_append [current] next.toList, hs.policy_eq, hcur, rfl, rfl⟩
  | storeCurrent =>
    by_cases hf : policy = .forbidden
    · subst hf
      have := hp rfl
      subst this
      rw [hs.transition_forbidden (by simp)] at ht
      cases ht
    · rw [hs.transition_storeCurrent hf] at ht
      cases h with
      | some held => cases ht
      | none =>
        cases next with
        | none => cases ht
        | some p =>
          rw [Lib.map_eq_ok] at ht
          obtain ⟨cursor, hadv, rfl⟩ := ht
          have hcur := checkedAdvance_ok hadv
          rw [hs.cursor_eq] at hcur
          exact ⟨[current, p], some current, .storeCurrent current p hf, prefix_refl _,
            hs.policy_eq, hcur, rfl, rfl⟩

/-- …and every step of the slot machine on what lies ahead is accepted, if the cursor has room. -/
theorem SlotAt.exists_transition {h h' : Option PieceKind} (hs : SlotAt s policy c h)
    (hp : policy = .forbidden → h = none) {word : List PieceKind} {p current : PieceKind}
    {next : Option PieceKind} (step : SlotStep policy h word p h')
    (hword : word <+: current :: next.toList) (hc : c + word.length < 2 ^ 16) :
    ∃ branch taken, transition s branch current next = .ok taken ∧ taken.usedPiece = p ∧
      SlotAt taken.nextState policy (c + word.length) h' := by
  rw [← hs.cursor_eq] at hc
  cases step with
  | current _ _ hreq =>
    obtain rfl := (cons_prefix_cons.mp hword).1
    obtain ⟨cursor, hadv, hcur⟩ := exists_checkedAdvance (c := s.cursor) (k := 1) hc
    rw [hs.cursor_eq] at hcur
    refine ⟨.current, Supply.step s { s with cursor } p p none 1 .current, ?_, rfl,
      hs.policy_eq, hcur, hs.hold_eq, hs.empty_eq⟩
    rw [hs.transition_current hreq hp, hadv]
    rfl
  | swapHeld _ q hf =>
    obtain rfl := (cons_prefix_cons.mp hword).1
    obtain ⟨cursor, hadv, hcur⟩ := exists_checkedAdvance (c := s.cursor) (k := 1) hc
    rw [hs.cursor_eq] at hcur
    refine ⟨.swapHeld, Supply.step s ({ s with cursor }.setHoldPiece (some q)) p q none 1
      .swapHeld, ?_, rfl, ?_⟩
    · rw [hs.transition_swapHeld hf, hadv]
      rfl
    · exact ⟨hs.policy_eq, hcur, rfl, rfl⟩
  | storeCurrent q _ hf =>
    obtain ⟨rfl, hrest⟩ := cons_prefix_cons.mp hword
    cases next with
    | none => simp at hrest
    | some r =>
      obtain rfl := (cons_prefix_cons.mp hrest).1
      obtain ⟨cursor, hadv, hcur⟩ := exists_checkedAdvance (c := s.cursor) (k := 2) hc
      rw [hs.cursor_eq] at hcur
      refine ⟨.storeCurrent, Supply.step s ({ s with cursor }.setHoldPiece (some q)) p q (some p)
        2 .storeCurrent, ?_, rfl, ?_⟩
      · rw [hs.transition_storeCurrent hf, hadv]
        rfl
      · exact ⟨hs.policy_eq, hcur, rfl, rfl⟩

/-! ## Whole runs -/

theorem SlotStep.hold_none {h h' : Option PieceKind} {word : List PieceKind} {p : PieceKind}
    (step : SlotStep policy h word p h') (hp : policy = .forbidden → h = none)
    (hf : policy = .forbidden) : h' = none := by
  cases step with
  | current => exact hp hf
  | swapHeld _ _ allowed => exact absurd hf allowed
  | storeCurrent _ _ allowed => exact absurd hf allowed

variable {queue : List PieceKind}

/-- What lies ahead of the cursor starts with the current piece and the next one. -/
theorem drop_of_getElem? {current : PieceKind} (h : queue[c]? = some current) :
    queue.drop c = current :: (queue[c + 1]?.toList ++ queue.drop (c + 2)) := by
  obtain ⟨hlt, rfl⟩ := List.getElem?_eq_some_iff.mp h
  rw [List.drop_eq_getElem_cons hlt]
  congr 1
  by_cases hlt2 : c + 1 < queue.length
  · rw [drop_eq_getElem_cons hlt2, getElem?_eq_getElem hlt2]
    rfl
  · rw [getElem?_eq_none (by omega), drop_of_length_le (by omega), drop_of_length_le (by omega)]
    rfl

/-- **A run of the automaton is a run of the slot machine** on a prefix of what lies ahead. -/
theorem HoldRun.slotRun {s s' : SupplyExecutionState} {placed : List PieceKind}
    (run : HoldRun queue s placed s') :
    ∀ {policy : HoldPolicy} {c : Nat} {h : Option PieceKind}, SlotAt s policy c h →
      (policy = .forbidden → h = none) →
      ∃ word h', SlotRun policy h word placed h' ∧ word <+: queue.drop c ∧
        SlotAt s' policy (c + word.length) h' := by
  induction run with
  | nil s => intro policy c h hs _; exact ⟨[], h, .nil h, nil_prefix, hs⟩
  | @cons s s' branch current taken placed atCursor accepted rest ih =>
    intro policy c h hs hp
    rw [hs.cursor_eq] at atCursor accepted
    obtain ⟨word, h₁, first, hword, hs₁⟩ := hs.slotStep hp accepted
    obtain ⟨words, h', run, hwords, hs'⟩ := ih hs₁ (first.hold_none hp)
    refine ⟨word ++ words, h', .cons first run, ?_, ?_⟩
    · -- the first word is what lies at the cursor, the others lie behind it
      have hahead : word <+: queue.drop c := by
        rw [drop_of_getElem? atCursor, ← cons_append]
        exact hword.trans (prefix_append _ _)
      obtain ⟨left, hleft⟩ := hahead
      rw [← hleft, prefix_append_right_inj]
      rwa [← drop_drop, ← hleft, drop_left] at hwords
    · rw [length_append, ← Nat.add_assoc]
      exact hs'

/-- …and the other way round, if the cursor has room for the word. -/
theorem SlotRun.exists_holdRun {h h' : Option PieceKind} {word placed : List PieceKind}
    (run : SlotRun policy h word placed h') :
    ∀ {s : SupplyExecutionState} {c : Nat}, SlotAt s policy c h →
      (policy = .forbidden → h = none) → word <+: queue.drop c → c + word.length < 2 ^ 16 →
      ∃ s', HoldRun queue s placed s' := by
  induction run with
  | nil h => intro s c _ _ _ _; exact ⟨s, .nil s⟩
  | @cons h h₁ h' word words placed p first run ih =>
    intro s c hs hp hprefixed hroom
    rw [length_append] at hroom
    obtain ⟨left, hleft⟩ := hprefixed
    have hne : queue.drop c ≠ [] := by
      rw [← hleft]
      cases first <;> simp
    have hlt : c < queue.length := by
      by_contra hge
      exact hne (drop_of_length_le (by omega))
    have hat : queue[c]? = some queue[c] := getElem?_eq_getElem hlt
    have hword : word <+: queue[c] :: queue[c + 1]?.toList := by
      have hahead : word <+: queue.drop c :=
        ⟨words ++ left, by rw [← append_assoc]; exact hleft⟩
      rw [drop_of_getElem? hat, ← cons_append] at hahead
      refine prefix_of_prefix_length_le hahead (prefix_append _ _) ?_
      cases first with
      | current | swapHeld => simp
      | storeCurrent =>
        have : c + 1 < queue.length := by
          have := congrArg List.length hleft
          simp only [length_append, length_cons, length_drop] at this
          omega
        rw [getElem?_eq_getElem this]
        simp
    obtain ⟨branch, taken, haccept, hused, hs₁⟩ :=
      hs.exists_transition hp first hword (by omega)
    obtain ⟨s', rest⟩ := ih hs₁ (first.hold_none hp) ⟨left, by
        rw [← drop_drop, ← hleft, append_assoc, drop_left]⟩ (by omega)
    refine ⟨s', ?_⟩
    rw [← hused]
    exact .cons (by rw [hs.cursor_eq]; exact hat) (by rw [hs.cursor_eq]; exact haccept) rest

end Clearra.Proof.Supply
