import Mathlib

/-!
# Peeling `Except` computations apart

Every fallible function of the source is a chain of `?`. These are the inversion rules for that
chain: from the fact that the whole returned `Ok`, the intermediate values.
-/

namespace Clearra.Lib

open List

variable {ε α β : Type}

variable {x : Except ε α}

theorem map_eq_ok {f : α → β} {b : β} : x.map f = .ok b ↔ ∃ a, x = .ok a ∧ f a = b := by
  cases x with
  | error e => simp [Except.map]
  | ok a => simp [Except.map]

theorem toOption_eq_some {a : α} : x.toOption = some a ↔ x = .ok a := by
  cases x with
  | error e => simp [Except.toOption]
  | ok a => simp [Except.toOption]

variable {f : α → Except ε β}

theorem bind_eq_ok {b : β} : x >>= f = .ok b ↔ ∃ a, x = .ok a ∧ f a = .ok b := by
  cases x with
  | error e => simp [bind, Except.bind]
  | ok a => simp [bind, Except.bind]

theorem bind_eq_error {e : ε} :
    x >>= f = .error e ↔ x = .error e ∨ ∃ a, x = .ok a ∧ f a = .error e := by
  cases x with
  | error e => simp [bind, Except.bind]
  | ok a => simp [bind, Except.bind]

theorem run_bind_eq_ok {σ : Type} {x : StateT σ (Except ε) α} {f : α → StateT σ (Except ε) β} {s : σ}
    {r : β × σ} : (x >>= f) s = .ok r ↔ ∃ a t, x s = .ok (a, t) ∧ f a t = .ok r := by
  change (x s >>= fun p => f p.1 p.2) = _ ↔ _
  rw [bind_eq_ok]
  exact ⟨fun ⟨⟨a, t⟩, hx, hf⟩ => ⟨a, t, hx, hf⟩, fun ⟨a, t, hx, hf⟩ => ⟨(a, t), hx, hf⟩⟩

theorem ok_bind {a : α} : (Except.ok a >>= f) = f a := rfl

/-- `if p { return Err(e); }`. -/
def refuseIf (p : Prop) [Decidable p] (e : ε) : Except ε Unit := if p then .error e else .ok ()

@[simp] theorem refuseIf_eq_ok {p : Prop} [Decidable p] {e : ε} {u : Unit} :
    refuseIf p e = .ok u ↔ ¬p := by
  rw [refuseIf]
  split <;> simp [*]

@[simp] theorem refuseIf_eq_error {p : Prop} [Decidable p] {e e' : ε} :
    refuseIf p e = .error e' ↔ p ∧ e = e' := by
  rw [refuseIf]
  split <;> simp [*]

theorem refuseIf_of_not {p : Prop} [Decidable p] {e : ε} (h : ¬p) : refuseIf p e = .ok () :=
  if_neg h

theorem mapError_eq_ok {δ : Type} {f : ε → δ} {a : α} : x.mapError f = .ok a ↔ x = .ok a := by
  cases x with
  | error e => simp [Except.mapError]
  | ok a => simp [Except.mapError]

theorem mapError_eq_error {δ : Type} {f : ε → δ} {d : δ} :
    x.mapError f = .error d ↔ ∃ e, x = .error e ∧ f e = d := by
  cases x with
  | error e => simp [Except.mapError]
  | ok a => simp [Except.mapError]

/-! ### Loops that cannot fail -/

variable {γ : Type} {f : α → Except ε β}

variable {l : List α}

theorem mapM_eq_ok_map {g : α → β} (h : ∀ a ∈ l, f a = .ok (g a)) : l.mapM f = .ok (l.map g) := by
  induction l with
  | nil => rfl
  | cons a l ih =>
    rw [mapM_cons, h a mem_cons_self, ih fun b hb => h b (mem_cons_of_mem _ hb)]
    rfl

theorem forM_eq_ok {f : α → Except ε PUnit} (h : ∀ a ∈ l, f a = .ok ()) : l.forM f = .ok () := by
  induction l with
  | nil => rfl
  | cons a l ih =>
    change (f a >>= fun _ => l.forM f) = _
    rw [h a mem_cons_self, ok_bind]
    exact ih fun b hb => h b (mem_cons_of_mem _ hb)

variable {bs : List β}

/-- What a loop collects came from somewhere. -/
theorem exists_of_mem_mapM (h : l.mapM f = .ok bs) {b : β}
    (hb : b ∈ bs) : ∃ a ∈ l, f a = .ok b := by
  induction l generalizing bs with
  | nil =>
    cases h
    simp at hb
  | cons a l ih =>
    rw [mapM_cons, bind_eq_ok] at h
    obtain ⟨c, hc, h⟩ := h
    obtain ⟨cs, hcs, h⟩ := bind_eq_ok.mp h
    cases h
    rcases mem_cons.mp hb with rfl | hb
    · exact ⟨a, mem_cons_self, hc⟩
    · obtain ⟨d, hd, hfd⟩ := ih hcs hb
      exact ⟨d, mem_cons_of_mem _ hd, hfd⟩

/-- A loop whose step undoes `g` undoes it on lists. -/
theorem mapM_eq_ok_iff {g : β → α} (h : ∀ a b, f a = .ok b ↔ g b = a) :
    l.mapM f = .ok bs ↔ bs.map g = l := by
  induction l generalizing bs with
  | nil =>
    rw [mapM_nil, map_eq_nil_iff]
    exact ⟨fun hok => (Except.ok.inj hok).symm, fun hnil => hnil ▸ rfl⟩
  | cons a l ih =>
    rw [mapM_cons, bind_eq_ok, map_eq_cons_iff]
    constructor
    · rintro ⟨b, hb, hrest⟩
      obtain ⟨rest, hl, hbs⟩ := bind_eq_ok.mp hrest
      exact ⟨b, rest, (Except.ok.inj hbs).symm, (h a b).mp hb, ih.mp hl⟩
    · rintro ⟨b, rest, rfl, hb, hrest⟩
      exact ⟨b, (h a b).mpr hb, bind_eq_ok.mpr ⟨rest, ih.mpr hrest, rfl⟩⟩

theorem eq_map_of_mapM {g : α → β} (h : ∀ a b, f a = .ok b → b = g a)
    (hl : l.mapM f = .ok bs) : bs = l.map g := by
  induction l generalizing bs with
  | nil => exact (Except.ok.inj hl).symm
  | cons a l ih =>
    rw [mapM_cons, bind_eq_ok] at hl
    obtain ⟨b, hb, hrest⟩ := hl
    obtain ⟨rest, hrest, hbs⟩ := bind_eq_ok.mp hrest
    rw [map_cons, ← h a b hb, ← ih hrest]
    exact (Except.ok.inj hbs).symm

/-- A second loop whose step undoes that of the first gives back the list. -/
theorem eq_of_mapM_mapM {g : β → Except ε α} {l m : List α}
    (h : ∀ a ∈ l, ∀ b c, f a = .ok b → g b = .ok c → c = a) (hl : l.mapM f = .ok bs)
    (hm : bs.mapM g = .ok m) : m = l := by
  induction l generalizing bs m with
  | nil =>
    cases hl
    exact (Except.ok.inj hm).symm
  | cons a l ih =>
    rw [mapM_cons, bind_eq_ok] at hl
    obtain ⟨b, hb, hl⟩ := hl
    obtain ⟨rest, hrest, hl⟩ := bind_eq_ok.mp hl
    cases hl
    rw [mapM_cons, bind_eq_ok] at hm
    obtain ⟨c, hc, hm⟩ := hm
    obtain ⟨back, hback, hm⟩ := bind_eq_ok.mp hm
    cases hm
    rw [h a mem_cons_self b c hb hc, ih (fun a ha => h a (mem_cons_of_mem _ ha)) hrest hback]

theorem mapM_append_ok {l m : List α} {bs cs : List β} (hl : l.mapM f = .ok bs)
    (hm : m.mapM f = .ok cs) : (l ++ m).mapM f = .ok (bs ++ cs) := by
  rw [mapM_append, hl, hm]
  rfl

theorem mapM_flatMap_ok {g : γ → List α} {k : γ → List β} {l : List γ}
    (h : ∀ c ∈ l, (g c).mapM f = .ok (k c)) : (l.flatMap g).mapM f = .ok (l.flatMap k) := by
  induction l with
  | nil => rfl
  | cons c l ih =>
    rw [flatMap_cons, flatMap_cons]
    exact mapM_append_ok (h c mem_cons_self) (ih fun d hd => h d (mem_cons_of_mem _ hd))

end Clearra.Lib
