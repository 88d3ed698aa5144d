import Clearra.Ctk3.Transform
import Clearra.Proof.Ctk3.PointerWidth
import Clearra.Proof.Ctk3.RoundTrip

/-!
# What decodes need not be what would be written

The decoder canonicalises operations, but it takes heights, garbage rows and flags as they are
written. So a text can decode to a document that is not its own normal form, and then the checked
round trip refuses it. `roundtrip_lossless` says which documents these are.
-/

namespace Clearra.Proof.Ctk3

open Clearra.Ctk3 Lib List Option

/-! ## Tidy pages -/

/-- A page the encoder writes as it is: its highest row has a block, and so has its garbage row; the
    quiz flag is set if the comment asks for it. -/
structure TidyPage (width : Nat) (page : Ctk3Page) : Prop where
  top_row : page.height ≠ 0 → ∃ color ∈ page.cells.drop ((page.height - 1) * width), color ≠ .empty
  garbage_row : ∀ garbage, page.garbage = some garbage → ∃ color ∈ garbage, color ≠ .empty
  quiz_flag : asksForQuiz page.comment = true → page.flags.quiz = true

theorem code_ne_zero {color : Ctk3Color} : color.code ≠ 0 ↔ color ≠ .empty := by
  cases color <;> simp [Ctk3Color.code]

theorem exists_code_ne_zero {colors : List Ctk3Color} :
    (∃ code ∈ colors.map Ctk3Color.code, code ≠ 0) ↔ ∃ color ∈ colors, color ≠ .empty := by
  simp only [List.mem_map, ← code_ne_zero]
  exact ⟨fun ⟨_, ⟨color, hmem, hcode⟩, hne⟩ => ⟨color, hmem, hcode ▸ hne⟩,
    fun ⟨color, hmem, hne⟩ => ⟨_, ⟨color, hmem, rfl⟩, hne⟩⟩

theorem trimHeight_eq_self {width height : Nat} {codes : List Nat}
    (hlength : codes.length = height * width) :
    trimHeight width codes height = height ↔
      (height ≠ 0 → ∃ code ∈ codes.drop ((height - 1) * width), code ≠ 0) := by
  cases height with
  | zero => simp [trimHeight]
  | succ height =>
    have hrow : slice codes (height * width) ((height + 1) * width) =
        codes.drop (height * width) := by
      rw [slice]
      refine take_of_length_le ?_
      rw [length_drop, hlength]
    have hle := trimHeight_le width codes height
    rw [trimHeight, hrow, Nat.add_sub_cancel]
    by_cases hall : (codes.drop (height * width)).all (· = 0) = true
    · rw [if_pos hall]
      refine ⟨fun h => absurd h (by omega), fun h => ?_⟩
      obtain ⟨code, hmem, hcode⟩ := h (Nat.succ_ne_zero height)
      exact absurd (of_decide_eq_true (all_eq_true.mp hall code hmem)) hcode
    · rw [if_neg hall]
      simp only [true_iff]
      intro _
      simpa using hall

section

variable {width : Nat} {page : Ctk3Page}

theorem quizFlags_eq_self {comment : String} {flags : Ctk3PageFlags} :
    quizFlags comment flags = flags ↔ (asksForQuiz comment = true → flags.quiz = true) := by
  obtain ⟨lock, mirror, colorize, rise, quiz⟩ := flags
  rw [quizFlags]
  cases asksForQuiz comment with
  | false => simp
  | true => simp [eq_comm]

theorem filter_hasBlock_eq_self {garbage : Option (List Ctk3Color)} :
    (garbage.map (List.map Ctk3Color.code)).filter hasBlock = garbage.map (List.map Ctk3Color.code) ↔
      ∀ row, garbage = some row → ∃ color ∈ row, color ≠ .empty := by
  cases garbage with
  | none => simp
  | some row =>
    have hblock : hasBlock (row.map Ctk3Color.code) = true ↔ ∃ color ∈ row, color ≠ .empty := by
      rw [← exists_code_ne_zero, hasBlock, List.any_eq_true]
      simp only [decide_eq_true_eq]
    rw [map_some, filter_some]
    simp only [Option.some.injEq, forall_eq', ← hblock]
    cases hasBlock (row.map Ctk3Color.code) <;> simp

/-- A page that was read is its own normal form exactly when it is tidy. -/
theorem tidy_eq_self (h : PageOk width (plainPage page)) :
    tidy width (plainPage page) = plainPage page ↔ TidyPage width page := by
  have hoperation : page.operation.bind canonicalizeOperation = page.operation := by
    cases hcase : page.operation with
    | none => rfl
    | some operation => exact (h.operation_canonical operation hcase).2
  have hheight : trimHeight width (plainPage page).codes page.height = page.height ↔
      (page.height ≠ 0 →
        ∃ color ∈ page.cells.drop ((page.height - 1) * width), color ≠ .empty) := by
    rw [← exists_code_ne_zero, map_drop]
    exact trimHeight_eq_self h.codes_length
  constructor
  · intro heq
    exact ⟨hheight.mp (congrArg NormalizedPage.height heq),
      filter_hasBlock_eq_self.mp (congrArg NormalizedPage.garbageCodes heq),
      quizFlags_eq_self.mp (congrArg NormalizedPage.flags heq)⟩
  · intro htidy
    have htrim : trimHeight width (plainPage page).codes (plainPage page).height =
        (plainPage page).height := hheight.mpr htidy.top_row
    rw [tidy, htrim, ← h.codes_length, take_length]
    exact NormalizedPage.mk.injEq .. ▸ ⟨rfl, rfl, rfl, hoperation,
      quizFlags_eq_self.mpr htidy.quiz_flag, filter_hasBlock_eq_self.mpr htidy.garbage_row⟩

end

/-! ## Documents that were read -/

variable {document : Ctk3Document}

/-- What a checked build decodes a single segment to. -/
theorem DecodesSingle.segmentOk {b : Build} (hb : Checked b) {source : String}
    (h : DecodesSingle b source document) :
    SegmentOk document.width (document.pages.map plainPage) := by
  have hdecodes := h.decodes
  rw [decodeCtk3Exact, h.not_bundle, ok_bind, decodeEither] at hdecodes
  obtain ⟨found, -, hfound⟩ := bind_eq_ok.mp hdecodes
  obtain ⟨pages, hsegment, hpages⟩ := (agrees_decodeSinglePayload (.refl hb) found.1
    found.2).yields.result hfound
  rw [mapM_normalizedToPage.mp hpages]
  exact hsegment

theorem DecodesSingle.native_segmentOk {source : String} (h : DecodesSingle .native source document) :
    SegmentOk document.width (document.pages.map plainPage) := by
  refine DecodesSingle.segmentOk (b := Build.native.checked) ⟨rfl, by decide⟩ ⟨h.not_bundle, ?_⟩
  rw [← native_eq_checked source]
  exact h.decodes

/-- A document that was read is its own normal form exactly when its pages are tidy. -/
theorem normalForm_eq_self (h : SegmentOk document.width (document.pages.map plainPage)) :
    normalForm document = .ok document ↔
      ∀ page ∈ document.pages, TidyPage document.width page := by
  have hpage : ∀ page ∈ document.pages, PageOk document.width (plainPage page) :=
    fun page hmem => h.pages_ok _ (mem_map_of_mem hmem)
  rw [normalForm_eq_ok, normalizeDocument_of_segmentOk h]
  simp only [Except.ok.injEq, exists_eq_left', true_and]
  rw [tidyPages, map_inj_left]
  exact forall₂_congr fun page hmem => eq_comm.trans (tidy_eq_self (hpage page hmem))

theorem codec_ne_mismatch {x : Except Stop Ctk3Document} :
    x.mapError codecError ≠ .error (.error .roundTripMismatch) := by
  rw [Ne, mapError_eq_error]
  rintro ⟨stop, -, h⟩
  cases stop <;> simp [codecError] at h

theorem checkPageCount_ne_mismatch (document : Ctk3Document) :
    checkPageCount document ≠ .error (.error .roundTripMismatch) := by
  simp [checkPageCount, bind_eq_error]

/-- The checked encoder reports a mismatch only for a document that is not its own normal form. -/
theorem encodeChecked_ne_mismatch {b : Build} (hb : 32 ≤ b.pointerBits)
    (h : normalForm document = .ok document) :
    encodeChecked b document ≠ .error (.error .roundTripMismatch) := by
  simp only [encodeChecked, Ne, bind_eq_error, not_or, not_exists, not_and]
  refine ⟨checkPageCount_ne_mismatch document, fun _ _ => ⟨by simp [mapError_eq_error], ?_⟩⟩
  intro encoded hencoded
  refine ⟨by simp, fun _ _ => ⟨codec_ne_mismatch, fun decoded hdecoded => ⟨?_, fun _ _ h => ?_⟩⟩⟩
  · obtain ⟨normal, hnormal, hround⟩ := decode_encodeCtk3 hb (mapError_eq_ok.mp hencoded)
    rw [h, Except.ok.injEq] at hnormal
    rw [mapError_eq_ok, hround, Except.ok.injEq, ← hnormal] at hdecoded
    simp [hdecoded]
  · exact absurd h (by simp [pure, Except.pure])

/-- Operations are always canonical; a source can be written back losslessly exactly when every page
    it decodes to is tidy. -/
theorem roundtrip_lossless (source : String) (document : Ctk3Document)
    (h : DecodesSingle .native source document) :
    (∀ page ∈ document.pages, ∀ operation, page.operation = some operation →
      CanonicalOperation operation) ∧ ((normalForm document = .ok document ∧
      roundtrip .native source ≠ .error (.error .roundTripMismatch)) ↔
    ∀ page ∈ document.pages, TidyPage document.width page) := by
  have hsegment := h.native_segmentOk
  refine ⟨fun page hmem => (hsegment.pages_ok _ (mem_map_of_mem hmem)).operation_canonical, ?_⟩
  rw [← normalForm_eq_self hsegment]
  refine ⟨And.left, fun hnormal => ⟨hnormal, ?_⟩⟩
  simp only [roundtrip, decodeBounded, Ne, bind_eq_error, bind_eq_ok, not_or, not_exists, not_and]
  refine ⟨⟨by simp, fun _ _ => ⟨codec_ne_mismatch, fun decoded _ =>
    ⟨checkPageCount_ne_mismatch decoded, by simp [pure, Except.pure]⟩⟩⟩, ?_⟩
  rintro bounded ⟨_, -, decoded, hdecoded, _, -, hbounded⟩
  rw [mapError_eq_ok, h.decodes, Except.ok.injEq] at hdecoded
  cases hbounded
  exact encodeChecked_ne_mismatch (by decide) (hdecoded ▸ hnormal)

/-- A page of one row, which is empty. -/
def blankRow : Ctk3Document :=
  ⟨4, [⟨1, [.empty, .empty, .empty, .empty], "", none, .standard, none⟩]⟩

theorem decodesSingle_blankRow : DecodesSingle .native "ctk3_wxkCEAc5Qg" blankRow :=
  ⟨by decide +kernel, by decide +kernel⟩

theorem roundtrip_lossless_blankRow :
    DecodesSingle .native "ctk3_wxkCEAc5Qg" blankRow ∧
    (∀ page ∈ blankRow.pages, ∀ operation, page.operation = some operation →
      CanonicalOperation operation) ∧ ((normalForm blankRow = .ok blankRow ∧
      roundtrip .native "ctk3_wxkCEAc5Qg" ≠ .error (.error .roundTripMismatch)) ↔
      ∀ page ∈ blankRow.pages, TidyPage blankRow.width page) :=
  ⟨decodesSingle_blankRow, roundtrip_lossless _ _ decodesSingle_blankRow⟩

/-- The decoder keeps the empty row, the encoder drops it. -/
theorem roundtrip_blankRow :
    DecodesSingle .native "ctk3_wxkCEAc5Qg" blankRow ∧ normalForm blankRow ≠ .ok blankRow ∧
      roundtrip .native "ctk3_wxkCEAc5Qg" = .error (.error .roundTripMismatch) :=
  ⟨decodesSingle_blankRow, by decide +kernel, by decide +kernel⟩

end Clearra.Proof.Ctk3
