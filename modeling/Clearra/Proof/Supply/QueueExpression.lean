import Clearra.Proof.Supply.PatternWords
import Clearra.Proof.Supply.Unicode

/-!
# Reading queue patterns

An accepted text is read to its end, and every character read is one of the language's. A source is
upper-cased first: what it may hold are the characters that become such ones. Whole bags are listed
in lexicographic order.
-/

namespace Clearra.Proof.Supply

open Clearra.Supply Lib List Nat

/-! ## What is read -/

variable {c : Char}

/-- What has been read stands before what is left. -/
def Reads (text left : List Char) : Prop :=
  ∃ taken, text = taken ++ left ∧ ∀ c ∈ taken, c.toUpper ∈ patternAlphabet

namespace Reads

variable {text middle left : List Char}

theorem refl (text : List Char) : Reads text text := ⟨[], rfl, by simp⟩

theorem cons (hc : c.toUpper ∈ patternAlphabet) (h : Reads text left) :
    Reads (c :: text) left := by
  obtain ⟨taken, rfl, htaken⟩ := h
  exact ⟨c :: taken, rfl, forall_mem_cons.mpr ⟨hc, htaken⟩⟩

theorem trans (h : Reads text middle) (h' : Reads middle left) : Reads text left := by
  obtain ⟨taken, rfl, htaken⟩ := h
  obtain ⟨taken', rfl, htaken'⟩ := h'
  exact ⟨taken ++ taken', (append_assoc _ _ _).symm, forall_mem_append.mpr ⟨htaken, htaken'⟩⟩

theorem length_le (h : Reads text left) : left.length ≤ text.length := by
  obtain ⟨taken, rfl, -⟩ := h
  simp

theorem tail (hhead : text.head? = some c) (hc : c.toUpper ∈ patternAlphabet) :
    Reads text text.tail := by
  rw [← cons_head?_tail hhead]
  exact cons hc (refl _)

end Reads

variable {cursor left : Cursor} {start : Nat} {rest : List Char} {choices : List PieceKind}
  {text : AtomText}

theorem toUpper_digit (h : c.isDigit = true) : c.toUpper ∈ patternAlphabet := by
  have hall : ∀ n < 128, (Char.ofNat n).isDigit = true → (Char.ofNat n).toUpper ∈ patternAlphabet := by
    decide +kernel
  refine ascii_forall (P := fun c => c.isDigit = true → c.toUpper ∈ patternAlphabet) hall ?_ h
  have hle : c.toNat ≤ 57 := (Char.isDigit_iff_toNat.mp h).2
  omega

theorem toUpper_fromAscii {piece : PieceKind} (h : fromAscii c = some piece) :
    c.toUpper ∈ patternAlphabet := by
  unfold fromAscii at h
  generalize c.toUpper = upper at h ⊢
  split at h <;> first | decide | cases h

theorem parseCount_reads {count : Nat} (h : parseCount start cursor = .ok (count, left)) :
    Reads cursor.rest left.rest := by
  simp only [parseCount, bind_eq_ok] at h
  obtain ⟨_, _, _, _, h⟩ := h
  cases h
  exact ⟨_, takeWhile_append_dropWhile.symm, fun c hc => toUpper_digit (mem_takeWhile_imp hc)⟩

theorem groupPieces_reads {found : List PieceKind}
    (h : groupPieces start found rest = .ok (choices, left)) : Reads rest left.rest := by
  induction rest generalizing start found with
  | nil => exact absurd h (by simp [groupPieces])
  | cons value rest ih =>
    rw [groupPieces] at h
    split at h
    · rename_i hclosed
      cases h
      exact .cons (hclosed ▸ by decide) (.refl _)
    · cases hpiece : fromAscii value with
      | none => simp [hpiece] at h
      | some piece =>
        rw [hpiece] at h
        exact .cons (toUpper_fromAscii hpiece) (ih h)

theorem parseGroup_reads (h : parseGroup start rest = .ok (choices, left)) : Reads rest left.rest := by
  obtain ⟨⟨found, cursor⟩, hfound, h⟩ := bind_eq_ok.mp h
  obtain ⟨_, _, h⟩ := bind_eq_ok.mp h
  cases h
  split at hfound
  · rename_i hcomplement
    exact (Reads.tail hcomplement (by decide)).trans (groupPieces_reads hfound)
  · exact groupPieces_reads hfound

theorem readSuffix_reads {accepts : Bool} (h : readSuffix start accepts choices cursor = .ok (text, left)) :
    Reads cursor.rest left.rest := by
  rw [readSuffix] at h
  split at h
  · rename_i hhead
    cases h
    exact .tail hhead (by decide)
  · split at h
    · obtain ⟨⟨count, cursor'⟩, hcount, h⟩ := bind_eq_ok.mp h
      cases h
      exact parseCount_reads hcount
    · obtain ⟨_, _, h⟩ := bind_eq_ok.mp h
      cases h
      exact .refl _

theorem readAtom_reads {value : Char} (h : readAtom start value rest = .ok (text, left)) :
    value.toUpper ∈ patternAlphabet ∧ Reads rest left.rest := by
  rw [readAtom] at h
  cases hpiece : fromAscii value with
  | some piece =>
    rw [hpiece] at h
    cases h
    exact ⟨toUpper_fromAscii hpiece, Reads.refl _⟩
  | none =>
    rw [hpiece] at h
    dsimp only at h
    split at h
    · rename_i hvalue
      obtain ⟨⟨count, cursor⟩, hcount, h⟩ := bind_eq_ok.mp h
      cases h
      exact ⟨hvalue ▸ by decide, parseCount_reads hcount⟩
    · split at h
      · rename_i hvalue
        exact ⟨hvalue ▸ by decide, readSuffix_reads h⟩
      · split at h
        · rename_i hvalue
          obtain ⟨⟨choices, cursor⟩, hgroup, h⟩ := bind_eq_ok.mp h
          exact ⟨hvalue ▸ by decide, (parseGroup_reads hgroup).trans (readSuffix_reads h)⟩
        · cases h

theorem foldAtoms_reads {σ : Type} {step : Nat → AtomText → σ → Parse σ} {fuel : Nat} {s s' : σ}
    (h : foldAtoms step fuel cursor s = .ok s') (hfuel : cursor.rest.length ≤ fuel) :
    ∀ c ∈ cursor.rest, c.toUpper ∈ patternAlphabet := by
  induction fuel generalizing cursor s with
  | zero => simp [length_eq_zero_iff.mp (le_zero.mp hfuel)]
  | succ fuel ih =>
    obtain ⟨index, _ | ⟨value, rest⟩⟩ := cursor
    · simp
    · rw [foldAtoms] at h
      obtain ⟨⟨text, cursor⟩, hread, h⟩ := bind_eq_ok.mp h
      obtain ⟨state, -, h⟩ := bind_eq_ok.mp h
      obtain ⟨hvalue, hreads⟩ := readAtom_reads hread
      have hshort : cursor.rest.length ≤ fuel := hreads.length_le.trans (le_of_succ_le_succ hfuel)
      obtain ⟨taken, hrest, htaken⟩ := hreads
      refine forall_mem_cons.mpr ⟨hvalue, ?_⟩
      rw [hrest]
      exact forall_mem_append.mpr ⟨htaken, ih h hshort⟩

/-! ## Sources -/

theorem mem_splitOn (separator : Char) {source : List Char} (h : c ∈ source) :
    c = separator ∨ ∃ part ∈ source.splitOn separator, c ∈ part := by
  induction source with
  | nil => cases h
  | cons a source ih =>
    rw [List.splitOn, splitOnP_cons_eq_if_modifyHead, ← List.splitOn]
    obtain ⟨first, others, hsplit⟩ := exists_cons_of_ne_nil (splitOn_ne_nil separator source)
    rw [hsplit] at ih ⊢
    rw [mem_cons] at h
    rw [exists_mem_cons_iff] at ih
    by_cases ha : a = separator
    · simp only [ha, beq_self_eq_true, if_true, exists_mem_cons_iff, not_mem_nil, false_or]
      exact h.elim (fun hc => Or.inl (hc.trans ha)) ih
    · simp only [beq_iff_eq, ha, if_false, modifyHead_cons, exists_mem_cons_iff]
      cases h with
      | inl hc => exact Or.inr (Or.inl (hc ▸ mem_cons_self))
      | inr hc => exact (ih hc).imp_right (Or.imp_left (mem_cons_of_mem a))

variable {source : String} {maxPatterns : Nat} {e : ParsedExpression}

/-- The limit a number of patterns stands for. -/
def limitOf (maxPatterns : Nat) : Nat := if maxPatterns = 0 then usizeMax else maxPatterns

theorem accepted (h : parse source maxPatterns = .ok e) :
    (if ((normalize source).splitOn ';').length = 1 then
      factorizedSequences (((normalize source).splitOn ';').headD []) (limitOf maxPatterns)
    else expandedSequences ((normalize source).splitOn ';') (limitOf maxPatterns)) =
      .ok (e.sequences, e.sequenceLen) ∧ hasMixedSequenceLengths e.sequenceLen e.sequences = false := by
  obtain ⟨_, _, h⟩ := bind_eq_ok.mp h
  obtain ⟨alternatives, halternatives, h⟩ := bind_eq_ok.mp h
  obtain ⟨⟨sequences, sequenceLen⟩, hsequences, h⟩ := bind_eq_ok.mp h
  obtain ⟨_, -, h⟩ := bind_eq_ok.mp h
  obtain ⟨_, huniform, h⟩ := bind_eq_ok.mp h
  cases h
  obtain ⟨_, _, hsplit⟩ := bind_eq_ok.mp halternatives
  obtain ⟨_, _, hsplit⟩ := bind_eq_ok.mp hsplit
  obtain ⟨_, _, hsplit⟩ := bind_eq_ok.mp hsplit
  cases hsplit
  exact ⟨hsequences, Bool.eq_false_iff.mpr (refuseIf_eq_ok.mp huniform)⟩

theorem expandAlternative_of_foldlM {limit : Nat} {alternatives : List (List Char)}
    {unique unique' : List (List PieceKind)}
    (h : alternatives.foldlM (collectSequences limit) unique = .ok unique') :
    ∀ alternative ∈ alternatives, ∃ sequences, expandAlternative alternative limit = .ok sequences := by
  induction alternatives generalizing unique with
  | nil => simp
  | cons alternative alternatives ih =>
    rw [foldlM_cons] at h
    obtain ⟨next, hnext, h⟩ := bind_eq_ok.mp h
    obtain ⟨sequences, hsequences, -⟩ := bind_eq_ok.mp hnext
    exact forall_mem_cons.mpr ⟨⟨sequences, hsequences⟩, ih h⟩

/-- An accepted source has only characters of the language once it is upper-cased. -/
theorem normalize_reads (h : parse source maxPatterns = .ok e) :
    ∀ c ∈ normalize source, c.toUpper ∈ patternAlphabet := by
  have hsequences := (accepted h).1
  intro c hc
  cases mem_splitOn ';' hc with
  | inl hseparator => exact hseparator ▸ by decide
  | inr hpart =>
    obtain ⟨part, hpart, hc⟩ := hpart
    split at hsequences
    · rename_i hone
      obtain ⟨only, honly⟩ := length_eq_one_iff.mp hone
      rw [honly] at hpart hsequences
      obtain rfl := mem_singleton.mp hpart
      obtain ⟨space, hspace, -⟩ := bind_eq_ok.mp hsequences
      obtain ⟨folded, hfolded, -⟩ := bind_eq_ok.mp hspace
      exact foldAtoms_reads hfolded (Nat.le_refl _) c hc
    · obtain ⟨unique, hunique, -⟩ := bind_eq_ok.mp hsequences
      obtain ⟨sequences, hexpanded⟩ := expandAlternative_of_foldlM hunique part hpart
      exact foldAtoms_reads hexpanded (Nat.le_refl _) c hc

/-- The same letter, in one case or the other. -/
def CaseVariant (c d : Char) : Prop :=
  c = d ∨ (c.isAlpha = true ∧ d.isAlpha = true ∧ c.toUpper = d.toUpper)

theorem toNat_lt_of_isAlpha (h : c.isAlpha = true) : c.toNat < 128 := by
  simp only [Char.isAlpha, Char.isUpper, Char.isLower, Bool.or_eq_true, Bool.and_eq_true,
    decide_eq_true_eq, UInt32.le_iff_toNat_le] at h
  have hval : c.toNat = c.val.toNat := rfl
  have hupper : 'Z'.val.toNat = 90 := rfl
  have hlower : 'z'.val.toNat = 122 := rfl
  omega

/-- A letter is neither blank nor a comma, and is upper-cased alone. -/
theorem normalize_letter (h : c.isAlpha = true) :
    isWhitespace c = false ∧ c ≠ ',' ∧ toUppercase c = [c.toUpper] := by
  have hlt := toNat_lt_of_isAlpha h
  have hall : ∀ n < 128, (Char.ofNat n).isAlpha = true →
      isWhitespace (Char.ofNat n) = false ∧ Char.ofNat n ≠ ',' := by
    decide +kernel
  have hc := ascii_forall (P := fun c => c.isAlpha = true → isWhitespace c = false ∧ c ≠ ',') hall hlt h
  exact ⟨hc.1, hc.2, toUppercase_ascii hlt⟩

theorem normalize_caseVariant {other : String}
    (h : List.Forall₂ CaseVariant source.toList other.toList) :
    normalize other = normalize source := by
  unfold Supply.normalize
  generalize source.toList = left at h
  generalize other.toList = right at h
  induction h with
  | nil => rfl
  | cons hcase _ ih =>
    cases hcase with
    | inl heq =>
      rw [heq, filter_cons, filter_cons]
      split <;> simp only [flatMap_cons, ih]
    | inr hletters =>
      obtain ⟨hc, hd, hupper⟩ := hletters
      obtain ⟨hspace, hcomma, huppercase⟩ := normalize_letter hc
      obtain ⟨hspace', hcomma', huppercase'⟩ := normalize_letter hd
      rw [filter_cons_of_pos (by simp [hspace', hcomma']),
        filter_cons_of_pos (by simp [hspace, hcomma]), flatMap_cons, flatMap_cons, ih,
        huppercase, huppercase', hupper]

/-- The text is the source's own characters exactly when none of them is a disguised piece. -/
theorem parse_alphabet_iff (source : String) (maxPatterns : Nat) :
    ((∀ e, parse source maxPatterns = .ok e → ∀ c ∈ source.toList,
        isWhitespace c = false → c ≠ ',' → c.toUpper ∈ patternAlphabet) ∧
      ∀ other : String, List.Forall₂ CaseVariant source.toList other.toList →
        parse other maxPatterns = parse source maxPatterns) ↔
    ∀ e, parse source maxPatterns = .ok e → ∀ c ∈ disguisedPieces.map Prod.fst,
      c ∉ source.toList := by
  constructor
  · rintro ⟨halphabet, -⟩ e h c hc hmem
    have hforeign : ∀ d ∈ disguisedPieces, d.1.toUpper ∉ patternAlphabet ∧ d.1 ≠ ',' := by decide +kernel
    obtain ⟨d, hd, rfl⟩ := mem_map.mp hc
    obtain ⟨hupper, hcomma⟩ := hforeign d hd
    exact hupper (halphabet e h d.1 hmem (disguised d hd).1 hcomma)
  · intro hplain
    refine ⟨?_, ?_⟩
    · intro e h c hmem hspace hcomma
      have hread : ∀ d ∈ toUppercase c, d.toUpper ∈ patternAlphabet := by
        intro d hd
        refine normalize_reads h d (mem_flatMap.mpr ⟨c, mem_filter.mpr ⟨hmem, ?_⟩, hd⟩)
        simp [hspace, hcomma]
      by_cases hascii : c.toNat < 128
      · have hidem : ∀ n < 128, (Char.ofNat n).toUpper.toUpper = (Char.ofNat n).toUpper := by decide +kernel
        rw [← ascii_forall (P := fun c => c.toUpper.toUpper = c.toUpper) hidem hascii]
        exact hread _ (by rw [toUppercase_ascii hascii]; exact mem_singleton_self _)
      · exact absurd ((reads_iff_disguised (Nat.le_of_not_lt hascii)).mp hread) fun hdisguised =>
          hplain e h c hdisguised hmem
    · intro other hcase
      simp only [parse, normalize_caseVariant hcase]

/-- A group, a bag and two alternatives in both cases: every character is of the language, and the text in
    the other case is read alike. -/
theorem parse_alphabet_iff_mixedCase : ∃ e, parse " [tS]!, z;p1jL" 0 = .ok e ∧
    (∀ c ∈ " [tS]!, z;p1jL".toList, isWhitespace c = false → c ≠ ',' → c.toUpper ∈ patternAlphabet) ∧
    parse " [Ts]!, Z;P1Jl" 0 = .ok e := by
  have hparses : (parse " [tS]!, z;p1jL" 0).toOption.isSome = true := by decide +kernel
  have hplain : (disguisedPieces.all fun d => d.1 ∉ " [tS]!, z;p1jL".toList) = true := by decide +kernel
  obtain ⟨e, he⟩ := Option.isSome_iff_exists.mp hparses
  have h := toOption_eq_some.mp he
  obtain ⟨halphabet, hcases⟩ := (parse_alphabet_iff " [tS]!, z;p1jL" 0).mpr fun _ _ c hc => by
    obtain ⟨d, hd, rfl⟩ := mem_map.mp hc
    exact of_decide_eq_true (all_eq_true.mp hplain d hd)
  refine ⟨e, h, halphabet e h, (hcases " [Ts]!, Z;P1Jl" ?_).trans h⟩
  unfold CaseVariant
  decide +kernel

/-- One letter, read as two pieces. -/
theorem sharp_s_accepted : parse "ß" 0 = .ok ⟨['S', 'S'], .explicit [[.S, .S]], 2⟩ ∧
    isWhitespace 'ß' = false ∧ 'ß'.toUpper ∉ patternAlphabet := by
  decide +kernel

/-! ## Membership -/

theorem matchesDraws_iff {choices draws : List PieceKind} {seen : UsedMask} :
    ParsedExpression.matchesDraws choices seen draws = true ↔
      draws.Nodup ∧ ∀ piece ∈ draws, piece ∈ choices ∧ seen.getLsbD piece.index = false := by
  induction draws generalizing seen with
  | nil => simp [ParsedExpression.matchesDraws]
  | cons piece draws ih =>
    rw [ParsedExpression.matchesDraws]
    simp only [and_pieceBit_ne_zero]
    split
    · rename_i hrefused
      simp only [Bool.false_eq_true, forall_mem_cons, false_iff]
      rintro ⟨-, ⟨hchoice, hfree⟩, -⟩
      rw [hfree] at hrefused
      exact hrefused.elim (by simp) (absurd hchoice)
    · rename_i hfree
      simp only [not_or, Bool.not_eq_true, not_not] at hfree
      simp only [ih, getLsbD_or_pieceBit, nodup_cons, forall_mem_cons, Bool.or_eq_false_iff,
        decide_eq_false_iff_not]
      grind

theorem matchesAtoms_iff {atoms : List FactorizedPatternAtom}
    (h : ∀ atom ∈ atoms, Sized atom) {sequence : List PieceKind} :
    ParsedExpression.matchesAtoms atoms sequence = true ↔ Spells (factors atoms) sequence := by
  induction atoms generalizing sequence with
  | nil => exact isEmpty_iff
  | cons atom atoms ih =>
    obtain ⟨hatom, hatoms⟩ := forall_mem_cons.mp h
    simp only [ParsedExpression.matchesAtoms, Bool.and_eq_true, decide_eq_true_eq, matchesDraws_iff,
      ih hatoms]
    constructor
    · rintro ⟨⟨hlength, hnodup, hdraws⟩, hrest⟩
      exact ⟨_, _, (take_append_drop atom.drawCount sequence).symm, length_take_of_le hlength,
        hnodup.subperm fun piece hpiece => (hdraws piece hpiece).1, hrest⟩
    · rintro ⟨v, u, rfl, hlength, hv, hu⟩
      change v.length = atom.drawCount at hlength
      obtain ⟨sub, hperm, hsub⟩ := id hv
      rw [← hlength, take_left, drop_left]
      exact ⟨⟨by simp, hperm.nodup_iff.mp (hatom.nodup.sublist hsub), fun piece hpiece =>
        ⟨hv.subset hpiece, by simp⟩⟩, hu⟩

/-- A product whose numbers are those of its atoms. -/
structure Built (space : FactorizedQueuePatternSpace) : Prop where
  sized : ∀ atom ∈ space.atoms, Sized atom
  count : space.patternCount = (words (factors space.atoms)).length
  length : space.fullSequenceLen = ((factors space.atoms).map Prod.snd).sum
  visible : space.visibleSequenceLen = space.fullSequenceLen

theorem sized_new {index drawCount : Nat} {choices : List PieceKind} {atom : FactorizedPatternAtom}
    (h : FactorizedPatternAtom.new index choices drawCount = .ok atom) : Sized atom := by
  obtain ⟨_, hdraws, h⟩ := bind_eq_ok.mp h
  obtain ⟨_, -, h⟩ := bind_eq_ok.mp h
  rw [refuseIf_eq_ok, not_or, not_lt] at hdraws
  cases h
  exact ⟨nodup_sortDedup _, hdraws.2, fallingFactorial_eq _ _⟩

variable {limit : Nat} {space space' : FactorizedQueuePatternSpace}

theorem Built.push (h : Built space)
    (hpush : FactorizedQueuePatternSpace.push limit start text space = .ok space') : Built space' := by
  obtain ⟨atom, hatom, hpush⟩ := bind_eq_ok.mp hpush
  obtain ⟨_, -, hpush⟩ := bind_eq_ok.mp hpush
  have hsized : Sized atom := by cases text <;> exact sized_new hatom
  cases hpush
  refine ⟨forall_mem_append.mpr ⟨h.sized, forall_mem_singleton.mpr hsized⟩, ?_, ?_, rfl⟩
  · simp [h.count, length_words, factors, hsized.variants]
  · simp [h.length, factors]

theorem foldAtoms_inv {σ : Type} {step : Nat → AtomText → σ → Parse σ} {I : σ → Prop}
    (hstep : ∀ {start text s s'}, I s → step start text s = .ok s' → I s') {fuel : Nat} {s s' : σ}
    (hs : I s) (h : foldAtoms step fuel cursor s = .ok s') : I s' := by
  induction fuel generalizing cursor s with
  | zero => cases h; exact hs
  | succ fuel ih =>
    obtain ⟨index, _ | ⟨value, rest⟩⟩ := cursor
    · cases h; exact hs
    · obtain ⟨read, -, h⟩ := bind_eq_ok.mp h
      obtain ⟨state, hstate, h⟩ := bind_eq_ok.mp h
      exact ih (hstep hs hstate) h

theorem built_of_parse {characters : List Char}
    (h : FactorizedQueuePatternSpace.parse characters limit = .ok space) : Built space := by
  obtain ⟨folded, hfolded, h⟩ := bind_eq_ok.mp h
  obtain ⟨_, -, h⟩ := bind_eq_ok.mp h
  cases h
  exact foldAtoms_inv Built.push ⟨by simp, rfl, rfl, rfl⟩ hfolded

/-- A factorized expression is kept as its parser built it. -/
theorem built_of_accepted (h : parse source maxPatterns = .ok e)
    (he : e.sequences = .factorized space) :
    Built space ∧ e.sequenceLen = space.fullSequenceLen := by
  have hsequences := (accepted h).1
  split at hsequences
  · obtain ⟨parsed, hparsed, hsequences⟩ := bind_eq_ok.mp hsequences
    have hbuilt := built_of_parse hparsed
    obtain ⟨hstored, hlength⟩ := Prod.mk.inj (Except.ok.inj hsequences)
    rw [he] at hstored
    split at hstored
    · cases hstored
      exact ⟨hbuilt, hlength.symm.trans hbuilt.visible⟩
    · cases hstored
  · obtain ⟨unique, -, hsequences⟩ := bind_eq_ok.mp hsequences
    obtain ⟨_, -, hsequences⟩ := bind_eq_ok.mp hsequences
    rw [he] at hsequences
    cases hsequences

/-- Whether an expression matches exactly what it lists. -/
def MatchesListed (e : ParsedExpression) : Prop :=
  ∀ sequence, e.matchesSequence sequence = true ↔
    ∃ index < e.sequences.patternCount, e.sequences.sequenceAt index = some sequence

theorem listed_iff {sequences : QueuePatternExpression} {sequence : List PieceKind} :
    (∃ index < sequences.patternCount, sequences.sequenceAt index = some sequence) ↔
      ∃ index, sequences.sequenceAt index = some sequence := by
  refine exists_congr fun index => and_iff_right_of_imp fun hget => ?_
  cases sequences with
  | explicit sequences => exact (List.getElem?_eq_some_iff.mp hget).1
  | factorized space =>
    rw [QueuePatternExpression.sequenceAt, FactorizedQueuePatternSpace.sequence] at hget
    split at hget
    · rename_i hlt
      exact hlt
    · cases hget

theorem matchesListed_explicit {text : List Char} {sequences : List (List PieceKind)} {length : Nat}
    (h : ∀ sequence ∈ sequences, sequence.length = length) :
    MatchesListed ⟨text, .explicit sequences, length⟩ := by
  intro sequence
  refine Iff.trans ?_ (listed_iff.trans mem_iff_getElem?.symm).symm
  simp only [ParsedExpression.matchesSequence, Bool.and_eq_true, decide_eq_true_eq, any_eq_true]
  constructor
  · rintro ⟨-, _, hmem, rfl⟩
    exact hmem
  · intro hmem
    exact ⟨h sequence hmem, sequence, hmem, rfl⟩

/-- A product lists what its atoms spell, cut to what is visible, and matches what they spell. -/
theorem matchesListed_factorized {text : List Char} (h : Built space) {n : Nat} (hn : n ≤ space.fullSequenceLen) :
    MatchesListed ⟨text, .factorized { space with visibleSequenceLen := n }, n⟩ ↔
      n = space.fullSequenceLen := by
  have hlisted := fun sequence => (@listed_iff (.factorized { space with visibleSequenceLen := n })
    sequence).trans (@factorized_sequences { space with visibleSequenceLen := n } h.sized h.count
      sequence)
  have hmatches : ∀ sequence, ParsedExpression.matchesSequence
      ⟨text, .factorized { space with visibleSequenceLen := n }, n⟩ sequence = true ↔
      sequence.length = n ∧ Spells (factors space.atoms) sequence := by
    intro sequence
    rw [ParsedExpression.matchesSequence, Bool.and_eq_true, decide_eq_true_eq]
    exact and_congr_right fun _ => matchesAtoms_iff h.sized
  have hlength : ∀ w, Spells (factors space.atoms) w → w.length = space.fullSequenceLen :=
    fun w hw => (length_of_spells hw).trans h.length.symm
  constructor
  · intro hall
    have hdrawn : ∀ draw ∈ factors space.atoms, draw.2 ≤ draw.1.length := by
      intro draw hdraw
      obtain ⟨atom, hatom, rfl⟩ := mem_map.mp hdraw
      exact (h.sized atom hatom).draw_le
    obtain ⟨w, hw⟩ := exists_spells hdrawn
    have hspelled := ((hmatches _).mp ((hall _).mpr ((hlisted _).mpr ⟨w, hw, rfl⟩))).2
    have hshort := hlength _ hspelled
    rw [length_take] at hshort
    dsimp only at hshort
    omega
  · rintro rfl sequence
    refine (hmatches sequence).trans (Iff.trans ?_ (hlisted sequence).symm)
    constructor
    · rintro ⟨hfull, hw⟩
      exact ⟨sequence, hw, (take_of_length_le hfull.le).symm⟩
    · rintro ⟨w, hw, rfl⟩
      rw [take_of_length_le (hlength w hw).le]
      exact ⟨hlength w hw, hw⟩

/-- A prefix matches exactly what it lists if it is stored explicitly or cuts nothing off. -/
theorem matches_takePrefix_iff (h : parse source maxPatterns = .ok e) (n : Nat) :
    MatchesListed (e.takePrefix n) ↔ e.sequences.factorizedShape = none ∨ e.sequenceLen ≤ n := by
  have huniform := (accepted h).2
  obtain ⟨normalized, sequences, length⟩ := e
  cases sequences with
  | explicit sequences =>
    refine iff_of_true (matchesListed_explicit ?_) (Or.inl rfl)
    intro sequence hsequence
    obtain ⟨whole, hwhole, rfl⟩ := mem_map.mp hsequence
    have hlength := any_eq_false.mp huniform whole hwhole
    simp only [ne_eq, decide_not, Bool.not_eq_true, Bool.not_eq_false', decide_eq_true_eq] at hlength
    rw [length_take, hlength, Nat.min_eq_left (Nat.min_le_right _ _)]
  | factorized space =>
    obtain ⟨hbuilt, hlength⟩ := built_of_accepted h rfl
    change length = space.fullSequenceLen at hlength
    subst hlength
    have hcut : ParsedExpression.takePrefix ⟨normalized, .factorized space, space.fullSequenceLen⟩ n =
        ⟨normalized, .factorized { space with
          visibleSequenceLen := min n space.fullSequenceLen }, min n space.fullSequenceLen⟩ := by
      simp [ParsedExpression.takePrefix]
    rw [hcut, matchesListed_factorized hbuilt (Nat.min_le_right _ _)]
    simp [QueuePatternExpression.factorizedShape]

/-- A bag is matched whole, and not by its first piece. -/
theorem matches_takePrefix_iff_P7 : ∃ e, parse "P7" 0 = .ok e ∧
    ¬MatchesListed (e.takePrefix 1) ∧ MatchesListed (e.takePrefix 7) := by
  have h : parse "P7" 0 = .ok
      ⟨['P', '7'], .factorized ⟨[⟨PieceKind.standardTetrominoes, 7, 5040⟩], 5040, 7, 7⟩, 7⟩ := by
    decide +kernel
  refine ⟨_, h, fun hmatches => ?_, (matches_takePrefix_iff h 7).mpr (Or.inr (by decide))⟩
  exact absurd ((matches_takePrefix_iff h 1).mp hmatches) (by decide)

/-- The first piece of a bag is listed and not matched. -/
theorem bag_prefix_unmatched : ∃ e, parse "P7" 0 = .ok e ∧
    0 < (e.takePrefix 1).sequences.patternCount ∧
    (e.takePrefix 1).sequences.sequenceAt 0 = some [.I] ∧
    (e.takePrefix 1).matchesSequence [.I] = false :=
  ⟨⟨['P', '7'], .factorized ⟨[⟨PieceKind.standardTetrominoes, 7, 5040⟩], 5040, 7, 7⟩, 7⟩,
    by decide +kernel, by decide +kernel, by decide +kernel, by decide +kernel⟩

/-! ## Standard bags -/

/-- The queues of whole bags: no block of seven has a piece twice. -/
def BagWord (length : Nat) (w : List PieceKind) : Prop :=
  w.length = length ∧ ∀ k, ((w.drop (7 * k)).take 7).Nodup

theorem spells_bagAtoms_iff {n : Nat} {w : List PieceKind} :
    Spells (plan (bagAtoms n)) w ↔ BagWord n w := by
  induction n using Nat.strong_induction_on generalizing w with
  | _ n ih =>
    cases n with
    | zero =>
      refine Iff.trans Iff.rfl ⟨?_, fun h => length_eq_zero_iff.mp h.1⟩
      rintro rfl
      exact ⟨rfl, by simp⟩
    | succ n =>
      have hbag : (∀ piece, piece ∈ members fullStandardBag) ∧ (members fullStandardBag).Nodup := by decide
      have hrest := @ih (n + 1 - 7) (by omega)
      rw [plan_bagAtoms_succ]
      constructor
      · rintro ⟨v, u, rfl, hlength, ⟨block, hperm, hsub⟩, hu⟩
        obtain ⟨hleft, hblocks⟩ := hrest.mp hu
        -- the block is full or the last
        have htake : (v ++ u).take 7 = v := by
          rw [take_append, take_of_length_le (by omega), take_eq_nil_iff.mpr, append_nil]
          rw [← length_eq_zero_iff]
          omega
        have hdrop : (v ++ u).drop 7 = u :=
          append_cancel_left (htake ▸ take_append_drop 7 (v ++ u))
        refine ⟨by rw [length_append]; omega, fun k => ?_⟩
        cases k with
        | zero =>
          rw [Nat.mul_zero, drop_zero, htake]
          exact hperm.nodup_iff.mp (hbag.2.sublist hsub)
        | succ k =>
          rw [mul_succ, Nat.add_comm, ← drop_drop, hdrop]
          exact hblocks k
      · rintro ⟨hlength, hblocks⟩
        refine ⟨w.take 7, w.drop 7, (take_append_drop 7 w).symm, ?_,
          subperm_of_subset (hblocks 0) fun piece _ => hbag.1 piece, hrest.mpr ⟨?_, fun k => ?_⟩⟩
        · rw [length_take, hlength, Nat.min_comm]
        · rw [length_drop, hlength]
        · rw [drop_drop, Nat.add_comm, ← mul_succ]
          exact hblocks (k + 1)

/-- Piece by piece is lexicographic. -/
theorem pairwise_suffixes (n : Nat) (s : Place) : (suffixes n s).Pairwise (· < ·) := by
  induction n generalizing s with
  | zero => exact pairwise_singleton _ _
  | succ n ih =>
    have hpieces : PieceKind.standardTetrominoes.Pairwise (· < ·) := by decide
    rw [suffixes, pairwise_flatMap]
    refine ⟨fun piece _ => ?_, hpieces.imp fun hlt v hv w hw => ?_⟩
    · split
      · exact List.Pairwise.nil
      · exact pairwise_map.mpr ((ih _).imp fun hlt => List.Lex.cons hlt)
    · split at hv <;> split at hw <;> simp only [mem_map, not_mem_nil] at hv hw
      obtain ⟨v, -, rfl⟩ := hv
      obtain ⟨w, -, rfl⟩ := hw
      exact List.Lex.rel hlt

theorem plan_of_counts {counts : List Nat} (hne : counts ≠ [])
    (hseven : ∀ count ∈ counts.dropLast, count = 7) (hrange : ∀ count ∈ counts, 0 < count ∧ count ≤ 7) :
    counts.map (PieceKind.standardTetrominoes, ·) = plan (bagAtoms counts.sum) := by
  induction counts with
  | nil => exact absurd rfl hne
  | cons count rest ih =>
    obtain ⟨⟨hpos, hle⟩, hrest⟩ := forall_mem_cons.mp hrange
    obtain ⟨k, rfl⟩ := exists_eq_add_one.mpr hpos
    cases rest with
    | nil =>
      rw [sum_singleton, plan_bagAtoms_succ, Nat.min_eq_left hle, Nat.sub_eq_zero_of_le hle]
      rfl
    | cons next rest =>
      have hk : k + 1 = 7 := hseven _ mem_cons_self
      rw [sum_cons, Nat.add_right_comm, plan_bagAtoms_succ, Nat.min_eq_right (by omega), ← hk, Nat.add_right_comm, Nat.add_sub_cancel_left,
        ← ih (by simp) (fun count hcount => hseven count (mem_cons_of_mem _ hcount)) hrest]
      rfl

/-- A text of bags, and what a parser that accepts it makes of it. -/
structure BagText (text : List Char) (counts : List Nat) : Prop where
  range : ∀ count ∈ counts, 0 < count ∧ count ≤ 7
  single : ';' ∉ text
  atoms : ∀ {limit fuel index : Nat} {space space' : FactorizedQueuePatternSpace},
    text.length ≤ fuel →
    foldAtoms (FactorizedQueuePatternSpace.push limit) fuel ⟨index, text⟩ space = .ok space' →
    factors space'.atoms = factors space.atoms ++ counts.map (PieceKind.standardTetrominoes, ·)

theorem bagText_nil : BagText [] [] where
  range := by simp
  single := by simp
  atoms := by
    intro limit fuel index space space' _ h
    cases fuel <;> cases h <;> simp

theorem bagText_of_bagCounts {fuel : Nat} {text : List Char} {counts : List Nat}
    (hfuel : text.length ≤ fuel) (h : bagCounts fuel text = some counts) : BagText text counts := by
  induction fuel generalizing text counts with
  | zero =>
    obtain rfl := length_eq_zero_iff.mp (le_zero.mp hfuel)
    cases h
    exact bagText_nil
  | succ fuel ih =>
    cases text with
    | nil =>
      cases h
      exact bagText_nil
    | cons value rest =>
      rw [bagCounts, Option.ite_none_left_eq_some, Option.map_eq_some_iff] at h
      obtain ⟨hgood, tail, htail, rfl⟩ := h
      simp only [ne_eq, not_or, not_not, not_lt] at hgood
      obtain ⟨rfl, -, hpos, hle⟩ := hgood
      have hshort := (dropWhile_sublist Char.isDigit (l := rest)).length_le
      have hrest := ih (hshort.trans (le_of_succ_le_succ hfuel)) htail
      refine ⟨forall_mem_cons.mpr ⟨⟨Nat.pos_of_ne_zero hpos, hle⟩, hrest.range⟩, ?_, ?_⟩
      · rw [mem_cons, ← takeWhile_append_dropWhile (p := Char.isDigit) (l := rest), mem_append]
        rintro (hp | hdigit | hmem)
        · exact absurd hp (by decide)
        · exact absurd (mem_takeWhile_imp hdigit) (by decide)
        · exact hrest.single hmem
      · rintro limit (_ | fuel') index space space' hfuel' h
        · simp at hfuel'
        · obtain ⟨⟨read, cursor⟩, hread, h⟩ := bind_eq_ok.mp h
          obtain ⟨state, hstate, h⟩ := bind_eq_ok.mp h
          -- a `P` is no piece, so its count is read
          obtain ⟨⟨number, left⟩, hnumber, hread⟩ := bind_eq_ok.mp hread
          obtain ⟨_, -, hnumber⟩ := bind_eq_ok.mp hnumber
          obtain ⟨_, -, hnumber⟩ := bind_eq_ok.mp hnumber
          cases hnumber
          cases hread
          obtain ⟨atom, hatom, hstate⟩ := bind_eq_ok.mp hstate
          obtain ⟨_, -, hstate⟩ := bind_eq_ok.mp hstate
          cases hstate
          obtain ⟨_, -, hatom⟩ := bind_eq_ok.mp hatom
          obtain ⟨_, -, hatom⟩ := bind_eq_ok.mp hatom
          cases hatom
          have hsorted : sortDedup PieceKind.standardTetrominoes = PieceKind.standardTetrominoes := by decide
          rw [hrest.atoms (hshort.trans (le_of_succ_le_succ hfuel')) h, hsorted, factors,
            map_append, append_assoc]
          rfl

theorem bagText_of_drawCount {n : Nat} (h : standard7BagDrawCount source = some n) :
    ∃ counts, BagText (normalize source) counts ∧
      counts.map (PieceKind.standardTetrominoes, ·) = plan (bagAtoms n) := by
  simp only [standard7BagDrawCount, standard7BagWithOptionalLeadingPiece, Option.bind_eq_bind,
    Option.bind_eq_some_iff, Option.ite_none_left_eq_some, Option.ite_none_right_eq_some] at h
  obtain ⟨⟨piece, count⟩, ⟨first, -, leading, hleading, counts, hcounts, hgood, heq⟩, hnone, hn⟩ := h
  cases heq
  cases hn
  change piece = none at hnone
  have hfirst : first = 'P' := by
    by_contra hne
    rw [if_neg hne, hnone] at hleading
    simp at hleading
  rw [if_pos hfirst] at hcounts
  push Not at hgood
  have htext := bagText_of_bagCounts le_rfl hcounts
  exact ⟨counts, htext, plan_of_counts hgood.1 hgood.2 htext.range⟩

theorem sequenceAt_of_drawCount {n : Nat} (h : parse source maxPatterns = .ok e)
    (hdraws : standard7BagDrawCount source = some n) :
    e.sequences.patternCount = (words (plan (bagAtoms n))).length ∧
      ∀ index, e.sequences.sequenceAt index = (words (plan (bagAtoms n)))[index]? := by
  obtain ⟨counts, htext, hplan⟩ := bagText_of_drawCount hdraws
  have hsplit : (normalize source).splitOn ';' = [normalize source] :=
    splitOnP_eq_singleton fun c hc => beq_eq_false_iff_ne.mpr fun heq => htext.single (heq ▸ hc)
  have hstored := (accepted h).1
  rw [hsplit, if_pos length_singleton, headD_cons] at hstored
  obtain ⟨space, hspace, hstored⟩ := bind_eq_ok.mp hstored
  obtain ⟨hsized, hcount, hlength, hvisible⟩ := built_of_parse hspace
  obtain ⟨folded, hfolded, hspace⟩ := bind_eq_ok.mp hspace
  obtain ⟨_, -, hspace⟩ := bind_eq_ok.mp hspace
  cases hspace
  have hatoms : factors space.atoms = plan (bagAtoms n) := hplan ▸ htext.atoms le_rfl hfolded
  have hsequence : ∀ index, space.sequence index = (words (plan (bagAtoms n)))[index]? := by
    intro index
    rw [sequence_eq_words hsized hcount, hatoms]
    cases hw : (words (plan (bagAtoms n)))[index]? with
    | none => rfl
    | some w =>
      rw [Option.map_some, hvisible, hlength, hatoms,
        ← length_of_spells (mem_words.mp (mem_of_getElem? hw)), take_length]
  rw [hatoms] at hcount
  rw [← (Prod.mk.inj (Except.ok.inj hstored)).1]
  split
  · exact ⟨hcount, hsequence⟩
  · have hlisted : ((List.range space.patternCount).map fun index => (space.sequence index).getD []) =
        words (plan (bagAtoms n)) := by
      simp only [hsequence, hcount]
      exact ext_getElem (by simp) fun index _ h => by simp [getElem?_eq_getElem h]
    rw [hlisted]
    exact ⟨rfl, fun _ => rfl⟩

/-- All queues of whole bags of a length, in lexicographic order, are what their space writes and what
    an expression that asks for them lists. -/
theorem standard_bag_lexicographic (n : Nat) : ∃ all : List (List PieceKind), all.Pairwise (· < ·) ∧
    (∀ w, w ∈ all ↔ BagWord n w) ∧ (∀ count ≤ all.length, count ≤ usizeMax → ∀ index < count,
      Standard7BagSequenceSpace.sequence ⟨n, count⟩ index = all[index]?) ∧
    ∀ source maxPatterns e, standard7BagDrawCount source = some n →
      parse source maxPatterns = .ok e → e.sequences.patternCount = all.length ∧
        ∀ index, e.sequences.sequenceAt index = all[index]? := by
  refine ⟨words (plan (bagAtoms n)), suffixes_fresh n ▸ pairwise_suffixes n _,
    fun w => mem_words.trans spells_bagAtoms_iff, ?_,
    fun source maxPatterns e hdraws h => sequenceAt_of_drawCount h hdraws⟩
  rw [← suffixes_fresh]
  intro count hcount hfits index hindex
  have hsmall : usizeMax ≤ u128Max := by decide
  rw [Standard7BagSequenceSpace.sequence, if_pos hindex]
  exact writeBags_eq Place.whole_fresh (hindex.trans_le hcount) (hindex.trans_le (hfits.trans hsmall))

end Clearra.Proof.Supply
