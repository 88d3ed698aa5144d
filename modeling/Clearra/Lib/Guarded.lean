import Mathlib.Order.Basic

/-!
# Computations that may stop

Rules of reasoning about `Except ε` and `StateT σ (Except ε)`, for programs whose early ends matter.

`Yields` and `Meets` are about one computation: a result has its postcondition, the state only grows,
and every early end is an allowed one. `Agrees` and `Tracks` are about a computation that comes in
versions, of which two are compared. The narrow one meets its postcondition. The wide one ends the same
way, unless the narrow one stops for an excused reason. And where the narrow one halts for want of room,
the two had come to something too large for it, with the same results up to there (`ComesTo`).
-/

namespace Clearra.Lib

variable {σ ε α β : Type}

/-! ## One computation -/

section

/-- A result is good, and an early end is an allowed one. -/
def Yields (allowed : ε → Prop) (post : α → Prop) : Except ε α → Prop
  | .ok a => post a
  | .error e => allowed e

variable {allowed : ε → Prop} {post : α → Prop} {x : Except ε α}

theorem Yields.bind {f : α → Except ε β} {post' : β → Prop} (hx : Yields allowed post x)
    (hf : ∀ a, post a → Yields allowed post' (f a)) : Yields allowed post' (x >>= f) := by
  cases x with
  | error e => exact hx
  | ok a => exact hf a hx

theorem Yields.weaken {post' : α → Prop} (hx : Yields allowed post x)
    (h : ∀ a, post a → post' a) : Yields allowed post' x := by
  cases x with
  | error e => exact hx
  | ok a => exact h a hx

theorem Yields.allow {allowed' : ε → Prop} (hx : Yields allowed post x)
    (h : ∀ e, allowed e → allowed' e) : Yields allowed' post x := by
  cases x with
  | error e => exact h e hx
  | ok a => exact hx

theorem Yields.self (hx : Yields allowed post x) : Yields allowed (fun a => x = .ok a ∧ post a) x := by
  cases x with
  | error e => exact hx
  | ok a => exact ⟨rfl, hx⟩

theorem Yields.ite {c : Prop} [Decidable c] {y : Except ε α} (hx : c → Yields allowed post x)
    (hy : ¬c → Yields allowed post y) : Yields allowed post (if c then x else y) := by
  by_cases h : c
  · rw [if_pos h]
    exact hx h
  · rw [if_neg h]
    exact hy h

theorem Yields.result (hx : Yields allowed post x) {a : α} (h : x = .ok a) : post a := by
  rwa [h] at hx

theorem Yields.stopped (hx : Yields allowed post x) {e : ε} (h : x = .error e) : allowed e := by
  rwa [h] at hx

theorem Yields.mapM {f : α → Except ε β} {post : β → Prop} (h : ∀ a, Yields allowed post (f a))
    (l : List α) : Yields allowed (fun bs => ∀ b ∈ bs, post b) (l.mapM f) := by
  induction l with
  | nil => exact List.forall_mem_nil _
  | cons a l ih =>
    rw [List.mapM_cons]
    exact (h a).bind fun b hb => ih.bind fun bs hbs => List.forall_mem_cons.mpr ⟨hb, hbs⟩

end

section

variable [Preorder σ]

/-- A good result, and a state that has only grown from `s`. -/
abbrev Grown (s : σ) (post : α → Prop) (result : α × σ) : Prop := post result.1 ∧ s ≤ result.2

def Meets (allowed : ε → Prop) (p : StateT σ (Except ε) α) (post : α → Prop) : Prop :=
  ∀ s, Yields allowed (Grown s post) (p s)

variable {allowed : ε → Prop} {post post' : α → Prop} {p : StateT σ (Except ε) α}

namespace Meets

theorem ret {a : α} (h : post a) : Meets allowed (pure a : StateT σ (Except ε) α) post :=
  fun s => ⟨h, le_refl s⟩

theorem stop {e : ε} (h : allowed e) :
    Meets allowed (fun _ => .error e : StateT σ (Except ε) α) post := fun _ => h

theorem bind {f : α → StateT σ (Except ε) β} {post' : β → Prop} (hp : Meets allowed p post)
    (hf : ∀ a, post a → Meets allowed (f a) post') : Meets allowed (p >>= f) post' := fun s =>
  (hp s).bind fun x hx => (hf x.1 hx.1 x.2).weaken fun _ h => ⟨h.1, hx.2.trans h.2⟩

theorem weaken (hp : Meets allowed p post) (h : ∀ a, post a → post' a) :
    Meets allowed p post' := fun s => (hp s).weaken fun x hx => ⟨h x.1 hx.1, hx.2⟩

/-- Two continuations that agree on every result. -/
theorem bind_congr {f g : α → StateT σ (Except ε) β} (hp : Meets allowed p post)
    (h : ∀ a, post a → ∀ s, f a s = g a s) (s : σ) : (p >>= f) s = (p >>= g) s := by
  change (p s >>= fun x => f x.1 x.2) = (p s >>= fun x => g x.1 x.2)
  cases hps : p s with
  | error e => rfl
  | ok x => exact h x.1 ((hp s).result hps).1 x.2

theorem ite {c : Prop} [Decidable c] {q : StateT σ (Except ε) α} (hp : c → Meets allowed p post)
    (hq : ¬c → Meets allowed q post) : Meets allowed (if c then p else q) post := by
  by_cases h : c
  · rw [if_pos h]
    exact hp h
  · rw [if_neg h]
    exact hq h

theorem result (hp : Meets allowed p post) {s t : σ} {a : α} (h : p s = .ok (a, t)) :
    post a ∧ s ≤ t := (hp s).result h

theorem yields (hp : Meets allowed p post) (s : σ) :
    Yields allowed (fun result => post result.1) (p s) := (hp s).weaken fun _ h => h.1

end Meets

end

/-! ## Two versions of a computation -/

/-- Two of the versions, and what there is to say about their ends. -/
structure Comparison (ι ε κ : Type) where
  narrow : ι
  wide : ι
  /-- Ends that the versions have alike. -/
  ordinary : ε → Prop
  /-- Ends for want of room. -/
  halts : ε → Prop
  not_halts : ∀ e, ordinary e → ¬halts e
  /-- Whether the narrow one is so narrow that it may halt. -/
  mayHalt : Prop
  /-- Ends of the narrow one after which the wide one may go on. -/
  excused : ε → Prop
  /-- Where something is put into the room there is. -/
  site : ∀ {α : Type}, (ι → Except ε α) → κ → Prop
  large : κ → Prop

variable {ι κ : Type} {c : Comparison ι ε κ}

def Comparison.allowed (c : Comparison ι ε κ) (e : ε) : Prop := c.ordinary e ∨ c.halts e ∧ c.mayHalt

/-- Step by step with the same results, both versions come to a site. -/
inductive ComesTo (c : Comparison ι ε κ) : ∀ {α : Type}, (ι → Except ε α) → κ → Prop
  | here {α : Type} {x : ι → Except ε α} {i : κ} (h : c.site x i) : ComesTo c x i
  | first {α β : Type} {x : ι → Except ε α} {f : ι → α → Except ε β} {i : κ} (h : ComesTo c x i) :
      ComesTo c (fun v => x v >>= f v) i
  | later {α β : Type} {x : ι → Except ε α} {f : ι → α → Except ε β} {i : κ} {a : α}
      (hnarrow : x c.narrow = .ok a) (hwide : x c.wide = .ok a) (h : ComesTo c (f · a) i) :
      ComesTo c (fun v => x v >>= f v) i

/-- If the narrow version halts at sites that are too large, it halts wherever it comes to one. -/
theorem ComesTo.halts {x : ι → Except ε α} {i : κ} (h : ComesTo c x i) (hi : c.large i)
    (hsite : ∀ {α : Type} {x : ι → Except ε α}, c.site x i → ∃ e, x c.narrow = .error e ∧ c.halts e) :
    ∃ e, x c.narrow = .error e ∧ c.halts e := by
  induction h with
  | here h => exact hsite h
  | first _ ih =>
    obtain ⟨e, he, hhalts⟩ := ih hi hsite
    exact ⟨e, by simp only [he]; rfl, hhalts⟩
  | later hnarrow _ _ ih =>
    obtain ⟨e, he, hhalts⟩ := ih hi hsite
    exact ⟨e, by simp only [hnarrow]; exact he, hhalts⟩

structure Agrees (c : Comparison ι ε κ) (x : ι → Except ε α) (post : α → Prop) : Prop where
  yields : Yields c.allowed post (x c.narrow)
  follows : x c.narrow = x c.wide ∨ ∃ e, x c.narrow = .error e ∧ c.excused e
  caused : ∀ e, x c.narrow = .error e → c.halts e → ∃ i, c.large i ∧ ComesTo c x i

section

variable {x : ι → Except ε α} {post : α → Prop}

/-- Where the two do not differ. -/
theorem Agrees.same (h : Yields c.ordinary post (x c.narrow)) (heq : x c.narrow = x c.wide) :
    Agrees c x post where
  yields := h.allow fun _ => .inl
  follows := .inl heq
  caused e he hhalts := absurd hhalts (c.not_halts e (h.stopped he))

theorem Yields.agrees {y : Except ε α} (h : Yields c.ordinary post y) :
    Agrees c (fun _ => y) post := .same h rfl

theorem Agrees.weaken {post' : α → Prop} (hx : Agrees c x post) (h : ∀ a, post a → post' a) :
    Agrees c x post' := ⟨hx.yields.weaken h, hx.follows, hx.caused⟩

theorem Agrees.bind {f : ι → α → Except ε β} {post' : β → Prop} (hx : Agrees c x post)
    (hf : ∀ a, post a → Agrees c (f · a) post') : Agrees c (fun v => x v >>= f v) post' where
  yields := hx.yields.bind fun a ha => (hf a ha).yields
  follows := by
    obtain heq | ⟨e, he, hexcused⟩ := hx.follows
    · rw [← heq]
      cases hnarrow : x c.narrow with
      | error e => exact .inl rfl
      | ok a => exact (hf a (hx.yields.result hnarrow)).follows
    · exact .inr ⟨e, by rw [he]; rfl, hexcused⟩
  caused e he hhalts := by
    cases hnarrow : x c.narrow with
    | error e' =>
      rw [hnarrow] at he
      cases he
      obtain ⟨i, hi, hcomes⟩ := hx.caused e hnarrow hhalts
      exact ⟨i, hi, .first hcomes⟩
    | ok a =>
      rw [hnarrow] at he
      obtain ⟨i, hi, hcomes⟩ := (hf a (hx.yields.result hnarrow)).caused e he hhalts
      have hwide : x c.wide = .ok a := by
        obtain heq | ⟨e', he', -⟩ := hx.follows
        · rw [← heq, hnarrow]
        · simp [hnarrow] at he'
      exact ⟨i, hi, .later hnarrow hwide hcomes⟩

end

section

variable [Preorder σ]

def Tracks (c : Comparison ι ε κ) (p : ι → StateT σ (Except ε) α) (post : α → Prop) : Prop :=
  ∀ s, Agrees c (p · s) (Grown s post)

variable {p q : ι → StateT σ (Except ε) α} {post : α → Prop}

/-- What follows a computation from one state. -/
theorem Agrees.next {s : σ} {f : ι → α → StateT σ (Except ε) β} {post' : β → Prop}
    (hp : Agrees c (p · s) (Grown s post)) (hf : ∀ a, post a → Tracks c (f · a) post') :
    Agrees c (fun v => (p v >>= f v) s) (Grown s post') :=
  hp.bind fun result hresult => (hf result.1 hresult.1 result.2).weaken
    fun _ h => ⟨h.1, hresult.2.trans h.2⟩

namespace Tracks

theorem meets (hp : Tracks c p post) : Meets c.allowed (p c.narrow) post := fun s => (hp s).yields

theorem same (h : Meets c.ordinary (p c.narrow) post) (heq : ∀ s, p c.narrow s = p c.wide s) :
    Tracks c p post := fun s => .same (h s) (heq s)

theorem ret {a : α} (h : post a) : Tracks c (fun _ => (pure a : StateT σ (Except ε) α)) post :=
  same (.ret h) fun _ => rfl

theorem bind {f : ι → α → StateT σ (Except ε) β} {post' : β → Prop} (hp : Tracks c p post)
    (hf : ∀ a, post a → Tracks c (f · a) post') : Tracks c (fun v => p v >>= f v) post' :=
  fun s => (hp s).next hf

theorem weaken {post' : α → Prop} (hp : Tracks c p post) (h : ∀ a, post a → post' a) :
    Tracks c p post' := fun s => (hp s).weaken fun _ hx => ⟨h _ hx.1, hx.2⟩

theorem ite {d : Prop} [Decidable d] (hp : d → Tracks c p post) (hq : ¬d → Tracks c q post) :
    Tracks c (fun v => if d then p v else q v) post := by
  by_cases hd : d
  · simp only [if_pos hd]
    exact hp hd
  · simp only [if_neg hd]
    exact hq hd

/-- Reading the state first: whatever it is, what follows is fine. -/
theorem read {f : ι → σ → StateT σ (Except ε) α} (h : ∀ s, Tracks c (f · s) post) :
    Tracks c (fun v => get >>= f v) post := fun s => h s s

end Tracks

variable {r : StateT σ (Except ε) α}

theorem Meets.tracks (hr : Meets c.ordinary r post) : Tracks c (fun _ => r) post :=
  .same hr fun _ => rfl

/-- The versions begin with the same step. -/
theorem Meets.next {f : ι → α → StateT σ (Except ε) β} {post' : β → Prop}
    (hr : Meets c.ordinary r post) (hf : ∀ a, post a → Tracks c (f · a) post') :
    Tracks c (fun v => r >>= f v) post' := hr.tracks.bind hf

/-- The same, for what depends on where the step was taken. -/
theorem Meets.nextAt {f : ι → α → StateT σ (Except ε) β} {post' : β → Prop}
    (hr : Meets c.ordinary r post) (hf : ∀ s a t, r s = .ok (a, t) → post a →
      Agrees c (f · a t) (Grown t post')) :
    Tracks c (fun v => r >>= f v) post' := by
  intro s
  have hs : Agrees c (fun _ => r s) _ := (hr s).self.agrees
  exact hs.bind fun result hresult => (hf s result.1 result.2 hresult.1 hresult.2.1).weaken
    fun _ h => ⟨h.1, hresult.2.2.trans h.2⟩

end

end Clearra.Lib
