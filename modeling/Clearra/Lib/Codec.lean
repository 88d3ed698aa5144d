import Clearra.Lib.Result

/-!
# Writers and readers that undo each other

A writer appends to a sequence of symbols, a reader takes symbols off the front of one. Neither type
is fixed: `written` says what a writer has produced, `remaining` what a reader has in front of it.

`Reads p bs a` is a statement about the reader alone: wherever `bs` stands next, `p` takes exactly
it and answers `a`. `Encodes f p a` ties a writer to a reader: whatever `f` appends, `p` reads back
as `a`. Sequencing writers is sequencing readers (`Encodes.seq`), so a format that is written field
by field is read back field by field and no proof has to mention the symbols.
-/

namespace Clearra.Lib

open List

section

variable {β σ τ ε δ α γ : Type} (remaining : σ → List β) (written : τ → List β)

/-- Where `bs` stands next, the reader takes it and answers `a`. -/
def Reads (p : StateT σ (Except ε) α) (bs : List β) (a : α) : Prop :=
  ∀ (s : σ) (rest : List β), remaining s = bs ++ rest →
    ∃ s', p s = .ok (a, s') ∧ remaining s' = rest

/-- What the writer appends, if it succeeds, the reader reads back as `a`. -/
def Encodes (f : τ → Except δ τ) (p : StateT σ (Except ε) α) (a : α) : Prop :=
  ∀ w w', f w = .ok w' → ∃ bs, written w' = written w ++ bs ∧ Reads remaining p bs a

variable {remaining} {written}

theorem Reads.pure (a : α) : Reads remaining (pure a : StateT σ (Except ε) α) [] a := by
  intro s rest h
  exact ⟨s, rfl, h⟩

variable {p : StateT σ (Except ε) α} {q : α → StateT σ (Except ε) γ} {a : α}

theorem Reads.bind {bs cs : List β} {b : γ} (hp : Reads remaining p bs a)
    (hq : Reads remaining (q a) cs b) : Reads remaining (p >>= q) (bs ++ cs) b := by
  intro s rest h
  rw [append_assoc] at h
  obtain ⟨s', hs', hrest'⟩ := hp s _ h
  obtain ⟨s'', hs'', hrest''⟩ := hq s' rest hrest'
  refine ⟨s'', ?_, hrest''⟩
  change (p s >>= fun x => q x.1 x.2) = _
  rw [hs']
  exact hs''

theorem Encodes.pure (a : α) :
    Encodes remaining written (pure : τ → Except δ τ) (pure a : StateT σ (Except ε) α) a := by
  intro w w' h
  cases h
  exact ⟨[], (append_nil _).symm, Reads.pure a⟩

variable {f g : τ → Except δ τ}

/-- Written one after the other, read one after the other. The second writer may depend on what the
    first one wrote, the second reader on what the first one read: both are `a`. -/
theorem Encodes.seq {b : γ} (hf : Encodes remaining written f p a)
    (hg : Encodes remaining written g (q a) b) :
    Encodes remaining written (f >=> g) (p >>= q) b := by
  intro w w' h
  obtain ⟨w1, hw1, hw⟩ := bind_eq_ok.mp h
  obtain ⟨bs, hbs, hp⟩ := hf w w1 hw1
  obtain ⟨cs, hcs, hq⟩ := hg w1 w' hw
  refine ⟨bs ++ cs, ?_, hp.bind hq⟩
  rw [hcs, hbs, append_assoc]

/-- What the writer appends is `bs`. -/
def Appends (written : τ → List β) (f : τ → Except δ τ) (bs : List β) : Prop :=
  ∀ w w', f w = .ok w' → written w' = written w ++ bs

theorem Appends.seq {bs cs : List β} (hf : Appends written f bs) (hg : Appends written g cs) :
    Appends written (f >=> g) (bs ++ cs) := by
  intro w w' h
  obtain ⟨w1, hw1, hw⟩ := bind_eq_ok.mp h
  rw [hg w1 w' hw, hf w w1 hw1, append_assoc]

/-- A tag in front: the reader looks at it symbol by symbol and goes on with the reader it
    announces. -/
theorem Encodes.tag {p q : StateT σ (Except ε) α} {bs : List β} (hf : Appends written f bs)
    (hg : Encodes remaining written g q a)
    (hp : ∀ cs, Reads remaining q cs a → Reads remaining p (bs ++ cs) a) :
    Encodes remaining written (f >=> g) p a := by
  intro w w' h
  obtain ⟨w1, hw1, hw⟩ := bind_eq_ok.mp h
  obtain ⟨cs, hcs, hq⟩ := hg w1 w' hw
  refine ⟨bs ++ cs, ?_, hp cs hq⟩
  rw [hcs, hf w w1 hw1, append_assoc]

/-- A tag that says it all. -/
theorem Encodes.of_appends {f : τ → Except δ τ} {bs : List β} (hf : Appends written f bs)
    (hp : Reads remaining p bs a) : Encodes remaining written f p a :=
  fun w w' h => ⟨bs, hf w w' h, hp⟩

/-- A reader that goes on by itself after what was written. -/
theorem Encodes.andThen {f : τ → Except δ τ} {b : γ} (hf : Encodes remaining written f p a)
    (hq : Reads remaining (q a) [] b) : Encodes remaining written f (p >>= q) b := by
  intro w w' h
  obtain ⟨bs, hbs, hp⟩ := hf w w' h
  refine ⟨bs, hbs, ?_⟩
  rw [← append_nil bs]
  exact hp.bind hq

/-- A writer that first has to make something. -/
theorem Encodes.given {e : Except δ γ} {k : γ → τ → Except δ τ}
    (h : ∀ c, e = .ok c → Encodes remaining written (k c) p a) :
    Encodes remaining written (fun w => e >>= fun c => k c w) p a := by
  intro w w' hw
  cases e with
  | error d => exact absurd hw (by simp [bind, Except.bind])
  | ok c => exact h c rfl w w' hw

/-! ## Loops

A reader that loops until something is complete is given a number of rounds. As many rounds as there
are symbols are enough, because every round takes one. -/

def EncodesWithin (remaining : σ → List β) (written : τ → List β) (f : τ → Except δ τ)
    (p : Nat → StateT σ (Except ε) α) (a : α) : Prop :=
  ∀ w w', f w = .ok w' → ∃ bs, written w' = written w ++ bs ∧
    ∀ rounds, bs.length ≤ rounds → Reads remaining (p rounds) bs a

namespace EncodesWithin

variable {f g : τ → Except δ τ} {p p' : Nat → StateT σ (Except ε) α} {a : α}

theorem done (h : ∀ rounds, Reads remaining (p rounds) [] a) :
    EncodesWithin remaining written (pure : τ → Except δ τ) p a := by
  intro w w' hw
  cases hw
  exact ⟨[], (append_nil _).symm, fun rounds _ => h rounds⟩

/-- One more round, which reads something. -/
theorem step {q : StateT σ (Except ε) γ} {b : γ} (hf : Encodes remaining written f q b)
    (hq : ∀ bs, Reads remaining q bs b → bs ≠ []) (hg : EncodesWithin remaining written g p a)
    (hp : ∀ rounds bs cs, Reads remaining q bs b → Reads remaining (p rounds) cs a →
      Reads remaining (p' (rounds + 1)) (bs ++ cs) a) :
    EncodesWithin remaining written (f >=> g) p' a := by
  intro w w' h
  change f w >>= g = _ at h
  cases hfw : f w with
  | error e =>
    rw [hfw] at h
    exact absurd h (by simp [bind, Except.bind])
  | ok w1 =>
    rw [hfw] at h
    obtain ⟨bs, hbs, hreads⟩ := hf w w1 hfw
    obtain ⟨cs, hcs, hrounds⟩ := hg w1 w' h
    refine ⟨bs ++ cs, by rw [hcs, hbs, append_assoc], fun rounds hlen => ?_⟩
    have hpos := length_pos_iff.mpr (hq bs hreads)
    rw [length_append] at hlen
    obtain ⟨rounds, rfl⟩ : ∃ r, rounds = r + 1 := ⟨rounds - 1, by omega⟩
    exact hp rounds bs cs hreads (hrounds rounds (by omega))

theorem given {e : Except δ γ} {k : γ → τ → Except δ τ}
    (h : ∀ c, e = .ok c → EncodesWithin remaining written (k c) p a) :
    EncodesWithin remaining written (fun w => e >>= fun c => k c w) p a := by
  intro w w' hw
  cases e with
  | error d => exact absurd hw (by simp [bind, Except.bind])
  | ok c => exact h c rfl w w' hw

/-- The rounds are counted by what is in front of the reader. -/
theorem run {size : σ → Nat} (hsize : ∀ s, size s = (remaining s).length)
    (h : EncodesWithin remaining written f p a) :
    Encodes remaining written f (get >>= fun s => p (size s)) a := by
  intro w w' hw
  obtain ⟨bs, hbs, hreads⟩ := h w w' hw
  refine ⟨bs, hbs, fun s rest hs => ?_⟩
  refine hreads (size s) ?_ s rest hs
  rw [hsize, hs, length_append]
  exact Nat.le_add_right _ _

end EncodesWithin

end

end Clearra.Lib
