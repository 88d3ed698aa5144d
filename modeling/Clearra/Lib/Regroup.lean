import Mathlib.Data.List.Induction
import Mathlib.Tactic.Ring

/-!
# Regrouping bits into digits of another size

The usual loop of a base-64 coder: digits of `m` bits go in at the low end of an accumulator, and
digits of `k` bits come out at its high end as soon as there are enough. Read as one number, most
significant digit first, what has come out and what is still pending is what has gone in.
-/

namespace Clearra.Lib

open List

/-- `while count >= k { .. }`: the digits that come out, and what is left pending. -/
def drain (k : Nat) : Nat → Nat → Nat → List Nat × Nat × Nat
  | 0, value, count => ([], value, count)
  | rounds + 1, value, count =>
    if count ≥ k then
      let rest := drain k rounds (value % 2 ^ (count - k)) (count - k)
      (value / 2 ^ (count - k) :: rest.1, rest.2)
    else ([], value, count)

/-- Digits that have come out, pending bits, and how many of these there are. -/
structure Regrouping where
  digits : List Nat
  value : Nat
  count : Nat

/-- One more digit of `m` bits. -/
def Regrouping.push (m k : Nat) (s : Regrouping) (digit : Nat) : Regrouping :=
  let drained := drain k (s.count + m) (s.value * 2 ^ m + digit) (s.count + m)
  ⟨s.digits ++ drained.1, drained.2.1, drained.2.2⟩

def regroup (m k : Nat) (digits : List Nat) : Regrouping :=
  digits.foldl (Regrouping.push m k) ⟨[], 0, 0⟩

/-- Digits of `k` bits as one number, most significant first. -/
def number (k : Nat) (digits : List Nat) : Nat := digits.foldl (fun n d => n * 2 ^ k + d) 0

theorem number_append_singleton (k : Nat) (digits : List Nat) (d : Nat) :
    number k (digits ++ [d]) = number k digits * 2 ^ k + d := by
  rw [number, foldl_append]
  rfl

theorem number_injective {k : Nat} {ds es : List Nat} (hlen : ds.length = es.length)
    (hd : ∀ d ∈ ds, d < 2 ^ k) (he : ∀ e ∈ es, e < 2 ^ k) (h : number k ds = number k es) :
    ds = es := by
  induction ds using List.reverseRecOn generalizing es with
  | nil => exact (length_eq_zero_iff.mp hlen.symm).symm
  | append_singleton ds d ih =>
    cases es using List.reverseRecOn with
    | nil => simp at hlen
    | append_singleton es e =>
      have hdlt : d < 2 ^ k := hd d (by simp)
      have helt : e < 2 ^ k := he e (by simp)
      rw [number_append_singleton, number_append_singleton] at h
      have hmod := congrArg (· % 2 ^ k) h
      have hdiv := congrArg (· / 2 ^ k) h
      simp only [Nat.mul_add_mod_self_right, Nat.mod_eq_of_lt hdlt, Nat.mod_eq_of_lt helt] at hmod
      simp only [Nat.mul_comm _ (2 ^ k), Nat.mul_add_div (Nat.two_pow_pos k),
        Nat.div_eq_of_lt hdlt, Nat.div_eq_of_lt helt, Nat.add_zero] at hdiv
      rw [ih (by simpa using hlen) (fun d' h' => hd d' (mem_append_left _ h'))
        (fun e' h' => he e' (mem_append_left _ h')) hdiv, hmod]

/-- What has come out and what is pending make up `n`, of `bits` bits. -/
structure Regrouping.Holds (k : Nat) (s : Regrouping) (n bits : Nat) : Prop where
  number_eq : number k s.digits * 2 ^ s.count + s.value = n
  bits_eq : k * s.digits.length + s.count = bits
  value_lt : s.value < 2 ^ s.count
  digit_lt : ∀ d ∈ s.digits, d < 2 ^ k

theorem holds_drain {k : Nat} (hk : 0 < k) {digits : List Nat} {n bits : Nat} :
    ∀ {rounds value count : Nat}, count ≤ rounds →
      Regrouping.Holds k ⟨digits, value, count⟩ n bits →
      Regrouping.Holds k ⟨digits ++ (drain k rounds value count).1,
        (drain k rounds value count).2.1, (drain k rounds value count).2.2⟩ n bits ∧
        (drain k rounds value count).2.2 < k := by
  intro rounds
  induction rounds generalizing digits with
  | zero =>
    intro value count hle h
    rw [drain, append_nil]
    refine ⟨h, ?_⟩
    change count < k
    omega
  | succ rounds ih =>
    intro value count hle h
    rw [drain]
    split
    · rename_i hcount
      have hsplit : 2 ^ count = 2 ^ k * 2 ^ (count - k) := by
        rw [← Nat.pow_add]
        congr 1
        omega
      have hpos : 0 < 2 ^ (count - k) := Nat.two_pow_pos _
      have hdigit : value / 2 ^ (count - k) < 2 ^ k := by
        rw [Nat.div_lt_iff_lt_mul hpos, ← hsplit]
        exact h.value_lt
      have hstep : Regrouping.Holds k
          ⟨digits ++ [value / 2 ^ (count - k)], value % 2 ^ (count - k), count - k⟩ n bits := by
        constructor
        · rw [← h.number_eq, number_append_singleton]
          have := Nat.div_add_mod value (2 ^ (count - k))
          simp only [hsplit]
          calc (number k digits * 2 ^ k + value / 2 ^ (count - k)) * 2 ^ (count - k) +
                value % 2 ^ (count - k)
              = number k digits * (2 ^ k * 2 ^ (count - k)) +
                (2 ^ (count - k) * (value / 2 ^ (count - k)) + value % 2 ^ (count - k)) := by ring
            _ = _ := by rw [this]
        · have := h.bits_eq
          simp only [length_append, length_singleton, Nat.mul_succ] at this ⊢
          omega
        · exact Nat.mod_lt _ hpos
        · intro d hd
          rcases mem_append.mp hd with hd | hd
          · exact h.digit_lt d hd
          · rw [mem_singleton.mp hd]
            exact hdigit
      obtain ⟨hrest, hlt⟩ := ih (by omega) hstep
      rw [append_assoc, singleton_append] at hrest
      exact ⟨hrest, hlt⟩
    · rw [append_nil]
      refine ⟨h, ?_⟩
      change count < k
      omega

theorem Regrouping.holds_push {m k : Nat} (hk : 0 < k) {s : Regrouping} {n bits digit : Nat}
    (h : s.Holds k n bits) (hdigit : digit < 2 ^ m) :
    (s.push m k digit).Holds k (n * 2 ^ m + digit) (bits + m) ∧ (s.push m k digit).count < k := by
  refine holds_drain hk (Nat.le_refl _) ⟨?_, ?_, ?_, h.digit_lt⟩
  · rw [← h.number_eq, Nat.pow_add]
    ring
  · rw [← h.bits_eq]
    simp only
    omega
  · have := h.value_lt
    rw [Nat.pow_add]
    calc s.value * 2 ^ m + digit < s.value * 2 ^ m + 2 ^ m := by omega
      _ = (s.value + 1) * 2 ^ m := by ring
      _ ≤ 2 ^ s.count * 2 ^ m := Nat.mul_le_mul_right _ this

/-- Nothing is lost, and less than a digit is pending. -/
theorem holds_regroup {m k : Nat} (hk : 0 < k) {digits : List Nat} (h : ∀ d ∈ digits, d < 2 ^ m) :
    (regroup m k digits).Holds k (number m digits) (m * digits.length) ∧
      (regroup m k digits).count < k := by
  induction digits using List.reverseRecOn with
  | nil => exact ⟨⟨rfl, rfl, by simp [regroup], by simp [regroup]⟩, hk⟩
  | append_singleton ds d ih =>
    have hds := (ih fun e he => h e (mem_append_left _ he)).1
    rw [regroup, foldl_append, foldl_cons, foldl_nil, number_append_singleton,
      length_append, length_singleton, Nat.mul_succ]
    exact Regrouping.holds_push hk hds (h d (by simp))

/-- Digits of `m` bits come back from their regrouping into `k` bits, if the last digit was filled
    up with fewer than `m` zero bits: nothing is pending then but these. -/
theorem regroup_regroup {m k pad : Nat} (hm : 0 < m) {ds es : List Nat}
    (hd : ∀ d ∈ ds, d < 2 ^ m) (he : ∀ e ∈ es, e < 2 ^ k)
    (hnumber : number k es = number m ds * 2 ^ pad) (hlength : k * es.length = m * ds.length + pad)
    (hpad : pad < m) : regroup k m es = ⟨ds, 0, pad⟩ := by
  obtain ⟨h, hcount⟩ := holds_regroup hm he
  revert h hcount
  generalize regroup k m es = s
  obtain ⟨digits, value, count⟩ := s
  intro h hcount
  simp only at hcount
  have hbits := h.bits_eq
  simp only [hlength] at hbits
  -- both splits of the number of bits leave a remainder below `m`
  have hlen : digits.length = ds.length := by
    have h1 := congrArg (· / m) hbits
    simp only [Nat.mul_add_div hm, Nat.div_eq_of_lt hcount, Nat.div_eq_of_lt hpad] at h1
    omega
  have hpadeq : count = pad := by
    rw [hlen] at hbits
    omega
  subst hpadeq
  have hsplit := h.number_eq
  simp only [hnumber] at hsplit
  have hzero : value = 0 ∧ number m digits = number m ds := by
    have hlt := h.value_lt
    simp only at hlt
    have h1 := congrArg (· % 2 ^ count) hsplit
    have h2 := congrArg (· / 2 ^ count) hsplit
    simp only [Nat.mul_add_mod_self_right, Nat.mod_eq_of_lt hlt, Nat.mul_mod_left] at h1
    simp only [Nat.mul_comm _ (2 ^ count), Nat.mul_add_div (Nat.two_pow_pos count),
      Nat.div_eq_of_lt hlt, Nat.add_zero, Nat.mul_div_cancel_left _ (Nat.two_pow_pos count)] at h2
    exact ⟨h1, h2⟩
  rw [hzero.1, number_injective hlen h.digit_lt hd hzero.2]

end Clearra.Lib
