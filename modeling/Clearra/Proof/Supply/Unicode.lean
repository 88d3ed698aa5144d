import Clearra.Supply.QueueExpression

/-!
# Which characters become pieces

The queue-pattern parser upper-cases a source before it reads it. Within ASCII that is the case of a
letter. Beyond, five characters and no others are upper-cased into letters of the language
(`reads_iff_disguised`): the tables are gone through run by run, since the image of a run stays beyond
ASCII if its first does.
-/

namespace Clearra.Proof.Supply

open Clearra.Supply List

variable {c : Char}

theorem ascii_forall {P : Char → Prop} (h : ∀ n < 128, P (Char.ofNat n)) (hc : c.toNat < 128) :
    P c := by
  have hn := h c.toNat hc
  rwa [Char.ofNat_toNat] at hn

theorem toUppercase_ascii (h : c.toNat < 128) : toUppercase c = [c.toUpper] := if_pos h

/-- The characters beyond ASCII that become pieces when they are upper-cased. -/
def disguisedPieces : List (Char × List Char) :=
  [('ß', ['S', 'S']), ('ı', ['I']), ('ſ', ['S']), ('ﬅ', ['S', 'T']), ('ﬆ', ['S', 'T'])]

theorem disguised : ∀ d ∈ disguisedPieces, isWhitespace d.1 = false ∧ toUppercase d.1 = d.2 := by
  decide +kernel

/-- A character beyond ASCII is not of the language, in either case. -/
theorem toUpper_notMem_patternAlphabet (h : 128 ≤ c.toNat) : c.toUpper ∉ patternAlphabet := by
  have hascii : patternAlphabet.all (·.toNat < 128) = true := by decide
  have hupper : c.toUpper = c := by
    rw [Char.toUpper, dif_neg]
    intro hlower
    have hle : c.toNat ≤ 122 := hlower.2
    omega
  intro hmem
  have hlt := of_decide_eq_true (all_eq_true.mp hascii _ hmem)
  rw [hupper] at hlt
  omega

/-- A run that is not a disguise goes to scalar values beyond ASCII, or has a character that is not of
    the language. -/
theorem upperRuns_foreign : ∀ run ∈ upperRuns,
    run.first = run.last ∧ Char.ofNat run.first ∈ disguisedPieces.map Prod.fst ∨
      128 ≤ run.image ∧ (run.image + (run.last - run.first) < 0xD800 ∨
        0xE000 ≤ run.image ∧ run.image + (run.last - run.first) < 0x110000) ∨
      run.first = run.last ∧ (Char.ofNat run.image).toUpper ∉ patternAlphabet ∨
      ∃ code ∈ run.rest, (Char.ofNat code).toUpper ∉ patternAlphabet := by
  decide +kernel

/-- The characters beyond ASCII that are upper-cased into the language are the five disguises. -/
theorem reads_iff_disguised (h : 128 ≤ c.toNat) :
    (∀ d ∈ toUppercase c, d.toUpper ∈ patternAlphabet) ↔ c ∈ disguisedPieces.map Prod.fst := by
  constructor
  · intro hreads
    by_contra hplain
    rw [toUppercase, if_neg (by omega)] at hreads
    cases hrun : upperRuns.find? (·.contains c.toNat) with
    | none =>
      simp only [hrun, mem_singleton, forall_eq] at hreads
      exact toUpper_notMem_patternAlphabet h hreads
    | some run =>
      simp only [hrun, forall_mem_cons, forall_mem_map] at hreads
      obtain ⟨hhead, hrest⟩ := hreads
      have hcontains := List.find?_some hrun
      simp only [UpperRun.contains, Bool.and_eq_true, decide_eq_true_eq] at hcontains
      obtain ⟨⟨hfirst, hlast⟩, -⟩ := hcontains
      rcases upperRuns_foreign run (mem_of_find?_eq_some hrun) with
        ⟨hone, hdisguised⟩ | hrange | ⟨hone, hforeign⟩ | ⟨code, hcode, hforeign⟩
      · rw [show run.first = c.toNat by omega, Char.ofNat_toNat] at hdisguised
        exact hplain hdisguised
      · have hcode : (Char.ofNat (run.image + (c.toNat - run.first))).toNat =
            run.image + (c.toNat - run.first) := by
          rw [Char.toNat_ofNat, if_pos (show Nat.isValidChar _ by unfold Nat.isValidChar; omega)]
        exact toUpper_notMem_patternAlphabet (by rw [hcode]; omega) hhead
      · rw [show run.image + (c.toNat - run.first) = run.image by omega] at hhead
        exact hforeign hhead
      · exact hforeign (hrest code hcode)
  · intro hdisguised
    have hall : (disguisedPieces.all fun d => d.2.all (·.toUpper ∈ patternAlphabet)) = true := by
      decide +kernel
    obtain ⟨d, hd, rfl⟩ := mem_map.mp hdisguised
    rw [(disguised d hd).2]
    exact fun e he => of_decide_eq_true (all_eq_true.mp (all_eq_true.mp hall d hd) e he)

end Clearra.Proof.Supply
