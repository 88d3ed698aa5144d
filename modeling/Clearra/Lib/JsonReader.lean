import Clearra.Lib.JsonText

/-!
# No text begins inside another

A text that starts with an opening brace and then, before it is complete, meets a whole object again
is not a JSON text, wherever the cut is: inside a string the object's first key ends that string and
is then read as a bare word, where a value is expected the object closes but the outer brace never
does, and everywhere else a brace is out of place.
-/

namespace Clearra.Lib
namespace Scan

theorem run_cons (scan : Scan) (b : UInt8) (bytes : List UInt8) :
    run scan (b :: bytes) = (step scan b).bind fun next => run next bytes := by
  simp [run, List.foldlM_cons]

theorem run_append (scan : Scan) (left right : List UInt8) :
    run scan (left ++ right) = (run scan left).bind fun next => run next right := by
  simp [run, List.foldlM_append]

/-! ## Inside a bracket, or past the value -/

/-- A bracket is open, or a value is complete. -/
def Entered (scan : Scan) : Prop := scan.stack ≠ [] ∨ scan.mode = .after ∨ scan.mode = .token

variable {stack : List Frame} {b : UInt8} {next : Scan}

theorem entered_openValue (hs : stack ≠ []) (h : openValue stack b = some next) : Entered next := by
  unfold openValue at h
  split_ifs at h <;> cases h <;> simp [Entered, hs]

theorem entered_pop (h : pop stack b = some next) : Entered next := by
  unfold pop at h
  split at h
  · split_ifs at h
    cases h
    exact Or.inr (Or.inl rfl)
  · split_ifs at h
    cases h
    exact Or.inr (Or.inl rfl)
  · cases h

theorem entered_closeValue (h : closeValue stack b = some next) : Entered next := by
  unfold closeValue at h
  split_ifs at h
  · split at h
    · cases h
      simp [Entered]
    · cases h
      simp [Entered]
    · cases h
  · exact entered_pop h

theorem entered_step {scan next : Scan} (hs : Entered scan) (h : step scan b = some next) :
    Entered next := by
  obtain ⟨mode, stack⟩ := scan
  cases mode with
  | token =>
    simp only [step] at h
    split_ifs at h
    · cases h; exact hs
    · cases h; exact Or.inr (Or.inl rfl)
    · exact entered_closeValue h
  | after =>
    simp only [step] at h
    split_ifs at h
    · cases h; exact hs
    · exact entered_closeValue h
  | string isKey =>
    have hstack : stack ≠ [] := by simpa [Entered] using hs
    simp only [step] at h
    split_ifs at h <;> cases h <;> exact Or.inl hstack
  | escape isKey =>
    have hstack : stack ≠ [] := by simpa [Entered] using hs
    simp only [step] at h
    cases h
    exact Or.inl hstack
  | value =>
    have hstack : stack ≠ [] := by simpa [Entered] using hs
    simp only [step] at h
    split_ifs at h
    · cases h; exact hs
    · exact entered_openValue hstack h
  | firstItem =>
    have hstack : stack ≠ [] := by simpa [Entered] using hs
    simp only [step] at h
    split_ifs at h
    · cases h; exact hs
    · exact entered_pop h
    · exact entered_openValue hstack h
  | firstKey =>
    have hstack : stack ≠ [] := by simpa [Entered] using hs
    simp only [step] at h
    split_ifs at h
    · cases h; exact hs
    · cases h; exact Or.inl hstack
    · exact entered_pop h
  | key =>
    have hstack : stack ≠ [] := by simpa [Entered] using hs
    simp only [step] at h
    split_ifs at h
    · cases h; exact hs
    · cases h; exact Or.inl hstack
  | colon =>
    have hstack : stack ≠ [] := by simpa [Entered] using hs
    simp only [step] at h
    split_ifs at h
    · cases h; exact hs
    · cases h; exact Or.inl hstack

variable {bytes : List UInt8}

theorem entered_run {scan next : Scan} (hs : Entered scan) (h : run scan bytes = some next) :
    Entered next := by
  induction bytes generalizing scan with
  | nil =>
    cases h
    exact hs
  | cons b bytes ih =>
    rw [run_cons] at h
    obtain ⟨middle, hm, hr⟩ := Option.bind_eq_some_iff.1 h
    exact ih (entered_step hs hm) hr

/-! ## Reading under open brackets -/

/-- The same point of a text that is itself inside the brackets of `base`. -/
def under (base : List Frame) (scan : Scan) : Scan := ⟨scan.mode, scan.stack ++ base⟩

theorem openValue_under {base stack : List Frame} (h : openValue stack b = some next) :
    openValue (stack ++ base) b = some (next.under base) := by
  unfold openValue at h ⊢
  split_ifs at h ⊢ <;> cases h <;> rfl

theorem pop_under {base stack : List Frame} (h : pop stack b = some next) :
    pop (stack ++ base) b = some (next.under base) := by
  cases stack with
  | nil => cases h
  | cons frame stack =>
    cases frame <;> simp only [pop, List.cons_append] at h ⊢ <;> split_ifs at h ⊢ <;> cases h <;> rfl

theorem closeValue_under {base stack : List Frame} (h : closeValue stack b = some next) :
    closeValue (stack ++ base) b = some (next.under base) := by
  unfold closeValue at h ⊢
  split_ifs at h ⊢
  · cases stack with
    | nil => cases h
    | cons frame stack =>
      cases frame <;> cases h <;> rfl
  · exact pop_under h

theorem step_under {base : List Frame} {scan next : Scan} (h : step scan b = some next) :
    step (scan.under base) b = some (next.under base) := by
  obtain ⟨mode, stack⟩ := scan
  cases mode with
  | escape isKey =>
    cases h
    rfl
  | string isKey =>
    simp only [step, under] at h ⊢
    split_ifs at h ⊢ <;> cases h <;> rfl
  | token =>
    simp only [step, under] at h ⊢
    split_ifs at h ⊢
    · cases h; rfl
    · cases h; rfl
    · exact closeValue_under h
  | after =>
    simp only [step, under] at h ⊢
    split_ifs at h ⊢
    · cases h; rfl
    · exact closeValue_under h
  | value =>
    simp only [step, under] at h ⊢
    split_ifs at h ⊢
    · cases h; rfl
    · exact openValue_under h
  | firstItem =>
    simp only [step, under] at h ⊢
    split_ifs at h ⊢
    · cases h; rfl
    · exact pop_under h
    · exact openValue_under h
  | firstKey =>
    simp only [step, under] at h ⊢
    split_ifs at h ⊢
    · cases h; rfl
    · cases h; rfl
    · exact pop_under h
  | key =>
    simp only [step, under] at h ⊢
    split_ifs at h ⊢ <;> cases h <;> rfl
  | colon =>
    simp only [step, under] at h ⊢
    split_ifs at h ⊢ <;> cases h <;> rfl

theorem run_under {base : List Frame} {scan next : Scan} (h : run scan bytes = some next) :
    run (scan.under base) bytes = some (next.under base) := by
  induction bytes generalizing scan with
  | nil =>
    cases h
    rfl
  | cons b bytes ih =>
    rw [run_cons] at h ⊢
    obtain ⟨middle, hm, hr⟩ := Option.bind_eq_some_iff.1 h
    rw [step_under hm]
    exact ih hr

/-! ## An object where none can start -/

/-- The first bytes of an object whose first key starts with a lower-case `s`. -/
def objectHead : List UInt8 := [0x7b, 0x22, 0x73]

/-- A text read where a value is expected leaves the brackets around it open. -/
theorem not_done_under (hs : stack ≠ []) (hshape : JsonShape bytes) :
    (run ⟨.value, stack⟩ bytes).any done = false := by
  unfold JsonShape at hshape
  cases hrun : run ⟨.value, []⟩ bytes with
  | none => simp [hrun] at hshape
  | some final =>
    rw [hrun] at hshape
    have hfinal : final.stack = [] := by
      have hdone : final.done = true := hshape
      simp only [done, Bool.and_eq_true, List.isEmpty_iff] at hdone
      exact hdone.1
    have hunder := @run_under _ stack _ _ hrun
    simp only [under, List.nil_append, hfinal] at hunder
    rw [hunder]
    simp [done, hs]

theorem pop_brace (stack : List Frame) : pop stack 0x7b = none := by
  cases stack with
  | nil => rfl
  | cons frame stack => cases frame <;> rfl

theorem closeValue_word (stack : List Frame) : closeValue stack 0x73 = none := by
  cases stack with
  | nil => rfl
  | cons frame stack => cases frame <;> rfl

theorem closeValue_brace (stack : List Frame) : closeValue stack 0x7b = none := pop_brace stack

/-- Once a text has opened a bracket or is complete, a whole object after that point spoils it. -/
theorem not_done_of_entered {scan : Scan} (hs : Entered scan)
    (hshape : JsonShape (objectHead ++ bytes)) :
    (run scan (objectHead ++ bytes)).any done = false := by
  obtain ⟨mode, stack⟩ := scan
  have hstring : ∀ isKey, run ⟨.string isKey, stack⟩ (0x22 :: 0x73 :: bytes) = none := by
    intro isKey
    cases isKey <;> simp [run_cons, step, isSpace, closeValue_word]
  cases mode with
  | value => exact not_done_under (by simpa [Entered] using hs) hshape
  | firstItem => exact not_done_under (by simpa [Entered] using hs) hshape
  | string isKey =>
    have hbrace : run ⟨.string isKey, stack⟩ (objectHead ++ bytes) =
        run ⟨.string isKey, stack⟩ (0x22 :: 0x73 :: bytes) := rfl
    rw [hbrace, hstring]
    rfl
  | escape isKey =>
    have hbrace : run ⟨.escape isKey, stack⟩ (objectHead ++ bytes) =
        run ⟨.string isKey, stack⟩ (0x22 :: 0x73 :: bytes) := rfl
    rw [hbrace, hstring]
    rfl
  | token => simp [objectHead, run_cons, step, isSpace, isToken, closeValue_brace]
  | after => simp [objectHead, run_cons, step, isSpace, closeValue_brace]
  | firstKey => simp [objectHead, run_cons, step, isSpace, pop_brace]
  | key => simp [objectHead, run_cons, step, isSpace]
  | colon => simp [objectHead, run_cons, step, isSpace]

end Scan

/-- A text cut short and a whole object after it are not one text. -/
theorem not_jsonShape_torn {torn bytes : List UInt8}
    (hshape : JsonShape (Scan.objectHead ++ bytes)) :
    JsonShape (0x7b :: torn ++ (Scan.objectHead ++ bytes)) = false := by
  unfold JsonShape
  rw [List.cons_append, Scan.run_cons]
  show Option.any _ (Scan.run ⟨.firstKey, [.object]⟩ (torn ++ (Scan.objectHead ++ bytes))) = false
  rw [Scan.run_append]
  cases hrun : Scan.run ⟨.firstKey, [.object]⟩ torn with
  | none => rfl
  | some scan =>
    exact Scan.not_done_of_entered (Scan.entered_run (Or.inl (List.cons_ne_nil _ _)) hrun) hshape

end Clearra.Lib
