import Clearra.Proof.Ctk3.Pages

/-!
# The normal form

`normalizedToPage` undoes writing colours as codes, and nothing else (`normalizedToPage_eq_ok`).
Normalising a page tidies it (`tidy`): whatever it accepts comes out tidied and encodable, and it
accepts every page the decoder can return. A page is its own normal form exactly when it is `Tidy`.
-/

namespace Clearra.Proof.Ctk3

open Clearra.Ctk3 Lib List

/-! ## Colours -/

theorem code_lt (color : Ctk3Color) : color.code < 9 := by
  cases color with
  | empty => decide
  | gray => decide
  | piece p =>
    have h := wireIndex_lt p
    rw [Ctk3Color.code]
    omega

theorem fromCode_code (color : Ctk3Color) : Ctk3Color.fromCode color.code = some color := by
  cases color with
  | empty => rfl
  | gray => rfl
  | piece p => cases p <;> rfl

theorem code_of_fromCode {code : Nat} {color : Ctk3Color}
    (h : Ctk3Color.fromCode code = some color) : color.code = code := by
  rw [Ctk3Color.fromCode.eq_def] at h
  split at h <;> simp only [Option.some.injEq, reduceCtorEq] at h <;> (subst h; rfl)

theorem colorOf_eq_ok {reason : String} (code : Nat) (color : Ctk3Color) :
    colorOf reason code = .ok color ↔ color.code = code := by
  rw [colorOf]
  constructor
  · intro h
    split at h
    · rename_i found hfound
      cases h
      exact code_of_fromCode hfound
    · simp at h
  · rintro rfl
    rw [fromCode_code]

theorem validCodes_map_code (colors : List Ctk3Color) : ValidCodes (colors.map Ctk3Color.code) := by
  intro code hcode
  obtain ⟨color, -, rfl⟩ := mem_map.mp hcode
  exact code_lt color

theorem exists_colors {codes : List Nat} (h : ValidCodes codes) :
    ∃ colors : List Ctk3Color, colors.map Ctk3Color.code = codes := by
  refine ⟨codes.map fun code => (Ctk3Color.fromCode code).getD .empty, ?_⟩
  rw [map_map]
  refine (map_congr_left fun code hcode => ?_).trans (map_id _)
  have hlt := h code hcode
  interval_cases code <;> rfl

/-! ## Pages as codes -/

/-- A page with its colours as codes, and otherwise as it is. -/
def plainPage (page : Ctk3Page) : NormalizedPage where
  height := page.height
  codes := page.cells.map Ctk3Color.code
  comment := page.comment
  operation := page.operation
  flags := page.flags
  garbageCodes := page.garbage.map (List.map Ctk3Color.code)

theorem normalizedToPage_eq_ok (page : NormalizedPage) (plain : Ctk3Page) :
    normalizedToPage page = .ok plain ↔ plainPage plain = page := by
  have hcodes : ∀ (reason : String) (codes : List Nat) (colors : List Ctk3Color),
      codes.mapM (colorOf reason) = .ok colors ↔ colors.map Ctk3Color.code = codes :=
    fun reason codes colors => mapM_eq_ok_iff colorOf_eq_ok
  rw [normalizedToPage]
  simp only [bind_eq_ok, hcodes]
  constructor
  · rintro ⟨cells, hcells, garbage, hgarbage, hplain⟩
    cases hplain
    cases hcase : page.garbageCodes with
    | none =>
      rw [hcase] at hgarbage
      cases hgarbage
      rw [plainPage, hcells, Option.map_none, ← hcase]
    | some codes =>
      rw [hcase, Option.mapM_some, map_eq_pure_bind, bind_eq_ok] at hgarbage
      obtain ⟨colors, hcolors, hgarbage⟩ := hgarbage
      cases hgarbage
      rw [plainPage, hcells, Option.map_some, (hcodes _ _ _).mp hcolors, ← hcase]
  · rintro rfl
    refine ⟨plain.cells, rfl, plain.garbage, ?_, rfl⟩
    rw [plainPage]
    cases plain.garbage with
    | none => rfl
    | some colors =>
      rw [Option.map_some, Option.mapM_some, (hcodes _ _ _).mpr rfl]
      rfl

variable {pages : List NormalizedPage}

theorem mapM_normalizedToPage {plain : List Ctk3Page} :
    pages.mapM normalizedToPage = .ok plain ↔ plain.map plainPage = pages :=
  mapM_eq_ok_iff normalizedToPage_eq_ok

theorem exists_plainPage {width : Nat} {page : NormalizedPage} (h : Encodable width page) :
    ∃ plain, plainPage plain = page := by
  obtain ⟨cells, hcells⟩ := exists_colors h.codes_valid
  obtain ⟨height, codes, comment, operation, flags, garbageCodes⟩ := page
  cases garbageCodes with
  | none => exact ⟨⟨height, cells, comment, operation, flags, none⟩, by simp [plainPage, hcells]⟩
  | some garbage =>
    obtain ⟨colors, hcolors⟩ := exists_colors (h.garbage_valid garbage rfl)
    exact ⟨⟨height, cells, comment, operation, flags, some colors⟩,
      by simp [plainPage, hcells, hcolors]⟩

/-! ## Trimming -/

theorem trimHeight_le (width : Nat) (codes : List Nat) (height : Nat) :
    trimHeight width codes height ≤ height := by
  induction height with
  | zero => exact Nat.le_refl 0
  | succ height ih =>
    rw [trimHeight]
    split
    · omega
    · exact Nat.le_refl _

/-! ## Tidying -/

/-- `flags.quiz |= comment.starts_with("#Q=")`. -/
def quizFlags (comment : String) (flags : Ctk3PageFlags) : Ctk3PageFlags :=
  if asksForQuiz comment then { flags with quiz := true } else flags

/-- Whether a garbage row has a block. -/
def hasBlock (codes : List Nat) : Bool := codes.any (· ≠ 0)

def tidy (width : Nat) (page : NormalizedPage) : NormalizedPage where
  height := trimHeight width page.codes page.height
  codes := page.codes.take (trimHeight width page.codes page.height * width)
  comment := page.comment
  operation := page.operation.bind canonicalizeOperation
  flags := quizFlags page.comment page.flags
  garbageCodes := page.garbageCodes.filter hasBlock

section

variable {width index : Nat}

theorem normalizeOperation_eq_ok {operation canonical : Ctk3Operation} :
    normalizeOperation index operation = .ok canonical ↔ coordinatesInRange operation = true ∧
      canonicalizeOperation operation = some canonical ∧ coordinatesInRange canonical = true := by
  rw [normalizeOperation]
  split
  · rename_i hrange
    split
    · rename_i hnone
      simp [hnone]
    · rename_i found hfound
      rw [hfound, Option.some_inj]
      split
      · rename_i hcanonical
        rw [Except.ok.injEq]
        exact ⟨fun h => ⟨hrange, h, h ▸ hcanonical⟩, fun h => h.2.1⟩
      · rename_i hcanonical
        exact ⟨by simp, fun h => absurd (h.2.1 ▸ h.2.2) hcanonical⟩
  · rename_i hrange
    exact ⟨by simp, fun h => absurd h.1 hrange⟩

theorem mapM_normalizeOperation {operation canonical : Option Ctk3Operation}
    (h : operation.mapM (normalizeOperation index) = .ok canonical) :
    canonical = operation.bind canonicalizeOperation ∧
      ∀ found, canonical = some found → CanonicalOperation found := by
  cases operation with
  | none =>
    cases h
    exact ⟨rfl, by simp⟩
  | some operation =>
    rw [Option.mapM_some, map_eq_pure_bind, bind_eq_ok] at h
    obtain ⟨found, hfound, h⟩ := h
    cases h
    obtain ⟨-, hcanonical, hrange⟩ := normalizeOperation_eq_ok.mp hfound
    refine ⟨hcanonical.symm, ?_⟩
    rintro _ ⟨⟩
    exact ⟨hrange, canonicalizeOperation_idem hcanonical⟩

theorem mapM_normalizeGarbage {garbage : Option (List Ctk3Color)} {codes : Option (Option (List Nat))}
    (h : garbage.mapM (normalizeGarbage width index) = .ok codes) :
    codes.join = (garbage.map (List.map Ctk3Color.code)).filter hasBlock ∧
      ∀ found, codes.join = some found → found.length = width ∧ ValidCodes found := by
  cases garbage with
  | none =>
    cases h
    exact ⟨rfl, by simp⟩
  | some garbage =>
    rw [Option.mapM_some, map_eq_pure_bind, bind_eq_ok] at h
    obtain ⟨found, hfound, h⟩ := h
    cases h
    rw [normalizeGarbage] at hfound
    split at hfound
    · simp at hfound
    · rename_i hlength
      cases hfound
      refine ⟨?_, ?_⟩
      · rw [Option.map_some, Option.filter_some]
        rfl
      · intro found hjoin
        simp only [Option.join_some, Option.ite_none_right_eq_some, Option.some.injEq] at hjoin
        obtain ⟨-, rfl⟩ := hjoin
        rw [length_map]
        exact ⟨not_not.mp hlength, validCodes_map_code garbage⟩

variable {page : Ctk3Page}

theorem normalizePage_eq_ok {normal : NormalizedPage} :
    normalizePage width index page = .ok normal ↔ page.height ≤ maxHeight ∧
      page.cells.length = page.height * width ∧ page.comment.utf8ByteSize ≤ maxCommentBytes ∧
      ∃ operation, page.operation.mapM (normalizeOperation index) = .ok operation ∧
      ∃ garbage, page.garbage.mapM (normalizeGarbage width index) = .ok garbage ∧
      normal = { tidy width (plainPage page) with operation, garbageCodes := garbage.join } := by
  rw [normalizePage]
  by_cases hheight : page.height > maxHeight
  · rw [if_pos hheight, bind_eq_ok]
    exact ⟨fun ⟨_, h, _⟩ => absurd h (by simp [throw, throwThe, MonadExceptOf.throw]),
      fun h => absurd hheight (Nat.not_lt.mpr h.1)⟩
  rw [if_neg hheight]
  dsimp only
  by_cases hcells : page.cells.length ≠ page.height * width
  · rw [if_pos hcells, bind_eq_ok]
    exact ⟨fun ⟨_, h, _⟩ => absurd h (by simp [throw, throwThe, MonadExceptOf.throw]),
      fun h => absurd h.2.1 hcells⟩
  rw [if_neg hcells]
  by_cases hcomment : page.comment.utf8ByteSize > maxCommentBytes
  · rw [if_pos hcomment, bind_eq_ok]
    exact ⟨fun ⟨_, h, _⟩ => absurd h (by simp [throw, throwThe, MonadExceptOf.throw]),
      fun h => absurd hcomment (Nat.not_lt.mpr h.2.2.1)⟩
  rw [if_neg hcomment]
  simp only [bind_eq_ok]
  constructor
  · rintro ⟨operation, hoperation, garbage, hgarbage, h⟩
    exact ⟨Nat.le_of_not_lt hheight, not_not.mp hcells, Nat.le_of_not_lt hcomment, operation,
      hoperation, garbage, hgarbage, (Except.ok.inj h).symm⟩
  · rintro ⟨-, -, -, operation, hoperation, garbage, hgarbage, rfl⟩
    exact ⟨operation, hoperation, garbage, hgarbage, rfl⟩

theorem tidy_of_normalizePage {normal : NormalizedPage}
    (h : normalizePage width index page = .ok normal) :
    normal = tidy width (plainPage page) ∧ Encodable width normal := by
  obtain ⟨hheight, hcells, hcomment, operation, hoperation, garbage, hgarbage, rfl⟩ :=
    normalizePage_eq_ok.mp h
  obtain ⟨rfl, hcanonical⟩ := mapM_normalizeOperation hoperation
  obtain ⟨hjoin, hrow⟩ := mapM_normalizeGarbage hgarbage
  have hle := trimHeight_le width (plainPage page).codes page.height
  refine ⟨by rw [hjoin]; rfl, ⟨hle.trans hheight, ?_, hcomment, hcanonical,
    fun codes hcodes => (hrow codes hcodes).1⟩, ?_, fun codes hcodes => (hrow codes hcodes).2⟩
  · have hlength : (plainPage page).codes.length = page.height * width := by
      rw [plainPage, length_map, hcells]
    change ((plainPage page).codes.take _).length = _
    rw [length_take, hlength]
    exact Nat.min_eq_left (Nat.mul_le_mul_right width hle)
  · intro code hcode
    exact validCodes_map_code page.cells code (mem_of_mem_take hcode)

theorem normalizePage_of_pageOk (h : PageOk width (plainPage page)) :
    normalizePage width index page = .ok (tidy width (plainPage page)) := by
  have hoperation : page.operation.mapM (normalizeOperation index) =
      .ok (page.operation.bind canonicalizeOperation) := by
    cases hcase : page.operation with
    | none => rfl
    | some operation =>
      obtain ⟨hrange, hcanonical⟩ := h.operation_canonical operation hcase
      rw [Option.mapM_some, normalizeOperation_eq_ok.mpr ⟨hrange, hcanonical, hrange⟩,
        Option.bind_some, hcanonical]
      rfl
  have hgarbage : ∃ codes, page.garbage.mapM (normalizeGarbage width index) = .ok codes := by
    cases hcase : page.garbage with
    | none => exact ⟨none, rfl⟩
    | some garbage =>
      have hlength := h.garbage_length (garbage.map Ctk3Color.code) (by rw [plainPage, hcase]; rfl)
      rw [length_map] at hlength
      rw [Option.mapM_some, normalizeGarbage, if_neg (not_not.mpr hlength)]
      exact ⟨_, rfl⟩
  obtain ⟨codes, hcodes⟩ := hgarbage
  refine normalizePage_eq_ok.mpr ⟨h.height_le, ?_, h.comment_size, _, hoperation, codes, hcodes, ?_⟩
  · exact (length_map _).symm.trans h.codes_length
  · rw [(mapM_normalizeGarbage hcodes).1]
    rfl

end

/-! ## Documents -/

/-- The pages of a document, tidied. -/
def tidyPages (document : Ctk3Document) : List NormalizedPage :=
  document.pages.map fun page => tidy document.width (plainPage page)

theorem map_fst_zipIdx {α β : Type} (f : α → β) (l : List α) :
    (l.zipIdx.map fun entry => f entry.1) = l.map f := by
  conv_rhs => rw [← zipIdx_map_fst 0 l, map_map]
  rfl

variable {document : Ctk3Document}

theorem normalizeDocument_eq_ok (h : normalizeDocument document = .ok pages) :
    pages = tidyPages document ∧ SegmentOk document.width pages ∧
      ∀ page ∈ pages, Encodable document.width page := by
  rw [normalizeDocument] at h
  split at h
  · simp at h
  rename_i hwidth
  split at h
  · simp at h
  rename_i hcount
  rw [not_or] at hwidth hcount
  have hpages : pages = tidyPages document := by
    rw [eq_map_of_mapM (fun entry normal hnormal => (tidy_of_normalizePage hnormal).1) h]
    exact map_fst_zipIdx (fun page => tidy document.width (plainPage page)) _
  have hencodable : ∀ page ∈ pages, Encodable document.width page := by
    intro page hpage
    obtain ⟨entry, -, hentry⟩ := exists_of_mem_mapM h hpage
    exact (tidy_of_normalizePage hentry).2
  have hlength : pages.length = document.pages.length := by
    rw [hpages, tidyPages, length_map]
  exact ⟨hpages, ⟨Nat.pos_of_ne_zero hwidth.1, Nat.le_of_not_lt hwidth.2,
    hlength ▸ length_pos_iff.mpr hcount.1, hlength ▸ Nat.le_of_not_lt hcount.2,
    fun page hpage => (hencodable page hpage).toPageOk⟩, hencodable⟩

theorem normalizeDocument_of_segmentOk (h : SegmentOk document.width (document.pages.map plainPage)) :
    normalizeDocument document = .ok (tidyPages document) := by
  have hlength : (document.pages.map plainPage).length = document.pages.length := length_map _
  have hpos := h.pages_pos
  have hle := h.pages_le
  rw [hlength] at hpos hle
  rw [normalizeDocument, if_neg (by have := h.width_pos; have := h.width_le; omega), if_neg ?_,
    mapM_eq_ok_map (g := fun entry => tidy document.width (plainPage entry.1)),
    map_fst_zipIdx fun page => tidy document.width (plainPage page)]
  · rfl
  · intro entry hentry
    exact normalizePage_of_pageOk (h.pages_ok _ (mem_map_of_mem (fst_mem_of_mem_zipIdx hentry)))
  · rw [not_or]
    exact ⟨length_pos_iff.mp hpos, Nat.not_lt.mpr hle⟩

theorem normalForm_eq_ok {document normal : Ctk3Document} :
    normalForm document = .ok normal ↔ ∃ pages, normalizeDocument document = .ok pages ∧
      normal.width = document.width ∧ normal.pages.map plainPage = pages := by
  rw [normalForm]
  simp only [bind_eq_ok, mapM_normalizedToPage]
  constructor
  · rintro ⟨pages, hpages, plain, hplain, h⟩
    cases h
    exact ⟨pages, hpages, rfl, hplain⟩
  · rintro ⟨pages, hpages, hwidth, hplain⟩
    exact ⟨pages, hpages, normal.pages, hplain, by rw [← hwidth]; rfl⟩

theorem normalizedToDocument_eq_ok {width : Nat} : normalizedToDocument width pages = .ok document ↔
      document.width = width ∧ document.pages.map plainPage = pages := by
  rw [normalizedToDocument, ← mapM_normalizedToPage]
  cases pages.mapM normalizedToPage with
  | error e => simp
  | ok plain =>
    obtain ⟨width', pages'⟩ := document
    simp only [Except.ok.injEq, Ctk3Document.mk.injEq]
    exact ⟨fun h => ⟨h.1.symm, h.2⟩, fun h => ⟨h.1.symm, h.2⟩⟩

/-- What the encoder accepts has a normal form, and decoding the tidied pages gives it. -/
theorem exists_normalForm (h : normalizeDocument document = .ok pages) :
    ∃ normal, normalForm document = .ok normal ∧
      normalizedToDocument document.width pages = .ok normal := by
  obtain ⟨-, -, hencodable⟩ := normalizeDocument_eq_ok h
  have hplain : ∃ plain : List Ctk3Page, plain.map plainPage = pages := by
    have hrange : pages ∈ Set.range (List.map plainPage) := by
      rw [Set.range_list_map]
      exact fun page hpage => exists_plainPage (hencodable page hpage)
    exact hrange
  obtain ⟨plain, hplain⟩ := hplain
  exact ⟨⟨document.width, plain⟩, normalForm_eq_ok.mpr ⟨pages, h, rfl, hplain⟩,
    normalizedToDocument_eq_ok.mpr ⟨rfl, hplain⟩⟩

end Clearra.Proof.Ctk3
