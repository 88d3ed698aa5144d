import Clearra.Proof.Ctk3.Geometry
import Clearra.Proof.Ctk3.Safety

/-!
# Reading pages is safe

What holds of a page that was read is what later pages rely on when they refer to it: its field has
the size that goes with its height, and the coordinates of its operation are small. The rest of
`PageOk` is what the encoder would ask of the page.
-/

namespace Clearra.Proof.Ctk3

open Clearra.Ctk3 List

/-- An operation as the decoder leaves it. -/
def CanonicalOperation (operation : Ctk3Operation) : Prop :=
  coordinatesInRange operation = true ∧ canonicalizeOperation operation = some operation

structure PageOk (width : Nat) (page : NormalizedPage) : Prop where
  height_le : page.height ≤ maxHeight
  codes_length : page.codes.length = page.height * width
  comment_size : page.comment.utf8ByteSize ≤ maxCommentBytes
  operation_canonical : ∀ operation, page.operation = some operation → CanonicalOperation operation
  garbage_length : ∀ codes, page.garbageCodes = some codes → codes.length = width

theorem PageOk.near {width : Nat} {page : NormalizedPage} (h : PageOk width page) :
    NearOperation page := fun operation hoperation => (h.operation_canonical operation hoperation).1

variable {b b' : Build} [hb : Wider b b']

/-! ## Operations and comments -/

theorem safe_readCoordinate : Safe readCoordinate fun _ => True :=
  safe_readSignedVarInt.bind fun _ _ => (safe_failIf _ _).bind fun _ _ => .ret trivial

theorem safe_normalizeDecodedOperation (operation : Ctk3Operation) :
    Safe (normalizeDecodedOperation operation) CanonicalOperation := by
  refine (safe_failIf _ _).bind fun _ _ => (safe_orFail _ _).bind fun canonical hcanonical =>
    (safe_failIf _ _).bind fun _ hrange => .ret ⟨?_, canonicalizeOperation_idem hcanonical⟩
  simpa using hrange

theorem safe_readOperationBody : Safe readOperationBody CanonicalOperation :=
  (safe_readBits 3).bind fun _ _ => (safe_orFail _ _).bind fun _ _ => (safe_readBits _).bind
    fun _ _ => (safe_orFail _ _).bind fun _ _ => safe_readCoordinate.bind fun _ _ =>
    safe_readCoordinate.bind fun _ _ => safe_normalizeDecodedOperation _

theorem safe_readLegacyOperation : Safe readLegacyOperation CanonicalOperation :=
  (safe_readBits 3).bind fun _ _ => (safe_orFail _ _).bind fun _ _ => (safe_readBits 2).bind
    fun _ _ => (safe_orFail _ _).bind fun _ _ => safe_readCoordinate.bind fun _ _ =>
    safe_readCoordinate.bind fun _ _ => safe_normalizeDecodedOperation _

theorem safe_commentOfBytes (bytes : List Byte) :
    Safe (commentOfBytes bytes) fun comment => comment.utf8ByteSize = bytes.length := by
  rw [commentOfBytes]
  split
  · rename_i comment h
    refine .ret ?_
    rw [← Lib.length_utf8, Lib.utf8_of_fromUtf8 h, length_map]
  · exact safe_refuse (by simp)

theorem safe_readCommentLiteral :
    Safe readCommentLiteral fun comment => comment.utf8ByteSize ≤ maxCommentBytes :=
  safe_readVarUint.bind fun _ _ => (safe_failIf _ _).bind fun _ hlength =>
    (safe_readBytes _).bind fun bytes hbytes => (safe_commentOfBytes bytes).weaken
      fun _ hsize => by omega

theorem size_getD {comment : Option String}
    (h : ∀ text, comment = some text → text.utf8ByteSize ≤ maxCommentBytes) :
    (comment.getD "").utf8ByteSize ≤ maxCommentBytes := by
  cases comment with
  | none => exact Nat.zero_le _
  | some text => exact h text rfl

/-! ## Linear pages -/

/-- The largest field is far from leaving `usize`. -/
theorem field_lt {width height : Nat} (hwidth : width ≤ maxWidth) (hheight : height ≤ maxHeight) :
    width * height < 2 ^ 32 :=
  lt_of_le_of_lt (Nat.mul_le_mul hwidth hheight) (by decide)

theorem width_lt {width : Nat} (hwidth : width ≤ maxWidth) : width < 2 ^ 32 :=
  lt_of_le_of_lt hwidth (by decide)

theorem safe_readCompactFlags (previous : Option NormalizedPage) :
    Safe (readCompactFlags previous) fun _ => True := by
  refine (safe_readBits 2).bind fun mode _ => ?_
  split
  · exact .ret trivial
  · exact (safe_orFail _ _).weaken fun _ _ => trivial
  · exact (safe_readBits 5).bind fun _ _ => .ret trivial
  · exact safe_fail _

theorem safe_readCompactHeight (previous : Option NormalizedPage) :
    Safe (readCompactHeight previous) fun _ => True := by
  cases previous with
  | none => exact safe_readVarUint.weaken fun _ _ => trivial
  | some previous =>
    exact safe_readBit.bind fun same _ => .ite (fun _ => .ret trivial)
      fun _ => safe_readVarUint.weaken fun _ _ => trivial

theorem safe_fieldSize {width height : Nat} (hwidth : width ≤ maxWidth)
    (hheight : ¬height > maxHeight) :
    Steady b b' (usizeChecked · (width * height)) (· = width * height) :=
  safe_usizeChecked (field_lt hwidth (Nat.le_of_not_lt hheight))

section

variable {width : Nat} (hwidth : width ≤ maxWidth)
include hwidth

theorem safe_readCompactPage (previous : Option NormalizedPage) :
    Steady b b' (readCompactPage · width previous) (PageOk width) := by
  refine (safe_readCompactFlags previous).next fun flags _ => safe_readBit.next fun hasComment _ =>
    safe_readBit.next fun hasOperation _ => safe_readBit.next fun hasGarbage _ =>
    (safe_readCompactHeight previous).next fun height _ => (safe_failIf _ _).next
    fun _ hheight => (safe_fieldSize hwidth hheight).bind fun cellCount hcount => ?_
  subst hcount
  refine (safe_readCellEncoding (field_lt hwidth (Nat.le_of_not_lt hheight)) _ 3).bind
    fun codes hcodes => (safe_readIf hasGarbage (safe_readCellEncoding (width_lt hwidth)
    none 3)).bind fun garbageCodes hgarbage => (safe_readIf hasComment
    safe_readCommentLiteral.tracks).bind fun comment hcomment => (safe_readIf hasOperation
    safe_readOperationBody.tracks).bind fun operation hoperation => .ret ?_
  exact ⟨Nat.le_of_not_lt hheight, hcodes.trans (Nat.mul_comm _ _), size_getD hcomment,
    hoperation, hgarbage⟩

theorem safe_readLegacyPage (previous : Option NormalizedPage) :
    Steady b b' (readLegacyPage · width previous) (PageOk width) := by
  refine (safe_readBits 8).next fun metadata _ => safe_readVarUint.next fun height _ =>
    (safe_failIf _ _).next fun _ hheight => (safe_fieldSize hwidth hheight).bind
    fun cellCount hcount => ?_
  subst hcount
  refine (safe_readCellEncoding (field_lt hwidth (Nat.le_of_not_lt hheight)) _ 2).bind
    fun codes hcodes => (safe_readIf _ (safe_readCellEncoding (width_lt hwidth)
    none 2)).bind fun garbageCodes hgarbage => (safe_readIf _ safe_readCommentLiteral.tracks).bind
    fun comment hcomment => (safe_readIf _ safe_readLegacyOperation.tracks).bind
    fun operation hoperation => .ret ?_
  exact ⟨Nat.le_of_not_lt hheight, hcodes.trans (Nat.mul_comm _ _), size_getD hcomment,
    hoperation, hgarbage⟩

theorem safe_readLinearPage (revision : Nat) (previous : Option NormalizedPage) :
    Steady b b' (readLinearPage · width revision previous) (PageOk width) :=
  .ite (fun _ => safe_readLegacyPage hwidth previous)
    fun _ => safe_readCompactPage hwidth previous

theorem safe_readLinearLoop (revision count : Nat) {pages : List NormalizedPage}
    (hpages : ∀ page ∈ pages, PageOk width page) :
    Steady b b' (readLinearLoop · width revision count pages)
      fun all => all.length = pages.length + count ∧ ∀ page ∈ all, PageOk width page := by
  induction count generalizing pages with
  | zero => exact .ret ⟨rfl, hpages⟩
  | succ count ih =>
    refine (safe_readLinearPage hwidth revision _).bind fun page hpage => (ih ?_).weaken
      fun all hall => ⟨?_, hall.2⟩
    · exact forall_mem_append.mpr ⟨hpages, by simpa using hpage⟩
    · rw [hall.1, length_append, length_singleton]
      omega

end

/-! ## Temporal pages -/

theorem safe_readReference (history : List NormalizedPage) (reason : String) :
    Steady b b' (readReference · history reason) (· ∈ history) := by
  refine (safe_readVarUintPlus (by decide)).bind fun distance hdistance =>
    (safe_failIf _ _).next fun _ h => ((safe_indexed ?_).weaken fun page hpage => ?_).tracks
  · omega
  · exact mem_of_getElem? hpage

theorem safe_readTemporalFlags (previous : Option Ctk3PageFlags) :
    Safe (readTemporalFlags previous) fun _ => True := by
  refine safe_readBit.bind fun given _ => .ite (fun _ => .ret trivial) fun _ => ?_
  refine safe_readBit.bind fun literal _ =>
    .ite (fun _ => (safe_orFail _ _).weaken fun _ _ => trivial) fun _ => ?_
  exact (safe_readBits 5).bind fun _ _ => .ret trivial

theorem safe_readTemporalHeight (previous : Option NormalizedPage) :
    Safe (readTemporalHeight previous) fun _ => True := by
  cases previous with
  | none => exact safe_readVarUint.weaken fun _ _ => trivial
  | some previous =>
    exact safe_readBit.bind fun given _ =>
      .ite (fun _ => safe_readVarUint.weaken fun _ _ => trivial) fun _ => .ret trivial

theorem safe_readTemporalGarbage {width : Nat} (hwidth : width ≤ maxWidth)
    {previous : Option (List Nat)} (hprevious : ∀ codes, previous = some codes →
      codes.length = width) :
    Steady b b' (readTemporalGarbage · width previous)
      fun garbage => ∀ codes, garbage = some codes → codes.length = width := by
  refine safe_readBit.next fun given _ => .ite (fun _ => .ret (by simp)) fun _ => ?_
  refine safe_readBit.next fun literal _ => .ite (fun _ => ?_) fun _ => ?_
  · refine (safe_orFail _ _).next fun codes hcodes => .ret fun codes' heq => ?_
    exact hprevious codes' (hcodes.trans heq)
  · refine (safe_readCellEncoding (width_lt hwidth) _ 4).bind fun codes hcodes =>
      .ret fun codes' heq => ?_
    rwa [← Option.some.inj heq]

/-- What a list of earlier pages is good for. -/
def PagesOk (width : Nat) (history : List NormalizedPage) : Prop :=
  ∀ page ∈ history, PageOk width page

theorem safe_readTemporalComment {width : Nat} {history : List NormalizedPage}
    (hhistory : PagesOk width history) :
    Steady b b' (readTemporalComment · history)
      fun comment => comment.utf8ByteSize ≤ maxCommentBytes := by
  refine safe_readBit.next fun given _ => .ite (fun _ => .ret (Nat.zero_le _)) fun _ => ?_
  refine safe_readBit.next fun other _ => .ite (fun _ => ?_) fun _ => ?_
  · exact (safe_orFail _ _).next fun page hpage =>
      .ret (hhistory page (mem_of_getLast? hpage)).comment_size
  refine safe_readBit.next fun literal _ => .ite (fun _ => ?_) fun _ => safe_readCommentLiteral.tracks
  exact (safe_readReference history _).bind fun page hpage => (safe_failIf _ _).next
    fun _ _ => .ret (hhistory page hpage).comment_size

theorem safe_readMovedOperation (previous : Ctk3Operation) :
    Safe (readMovedOperation previous) CanonicalOperation :=
  safe_readSignedVarInt.bind fun _ _ => safe_readSignedVarInt.bind fun _ _ =>
    (safe_failIf _ _).bind fun _ _ => safe_normalizeDecodedOperation _

theorem safe_readTemporalOperation {previous : Option Ctk3Operation}
    (hprevious : ∀ operation, previous = some operation → CanonicalOperation operation) :
    Safe (readTemporalOperation previous)
      fun result => ∀ operation, result = some operation → CanonicalOperation operation := by
  have hsome : ∀ {operation : Ctk3Operation}, CanonicalOperation operation →
      ∀ operation', some operation = some operation' → CanonicalOperation operation' := by
    rintro operation h operation' heq
    rwa [← Option.some.inj heq]
  refine safe_readBit.bind fun given _ => .ite (fun _ => .ret (by simp)) fun _ => ?_
  refine safe_readBit.bind fun other _ => .ite (fun _ => ?_) fun _ => ?_
  · exact (safe_orFail _ _).bind fun operation h => .ret (hsome (hprevious operation h))
  refine safe_readBit.bind fun literal _ => .ite (fun _ => ?_) fun _ => ?_
  · exact (safe_orFail _ _).bind fun previous _ => (safe_readMovedOperation previous).bind
      fun _ h => .ret (hsome h)
  · exact safe_readOperationBody.bind fun _ h => .ret (hsome h)

theorem safe_previousPredictor (mode width height : Nat)
    {previous : NormalizedPage} (hprevious : NearOperation previous) :
    Steady b b' (previousPredictor · mode width height previous) fun _ => True := by
  have hlocked : ∀ clearRows grayscale,
      Steady b b' (Decoder.predictLockedCodes · previous width height clearRows grayscale)
        fun _ => True := by
    intro clearRows grayscale
    have heq := decoder_predictLockedCodes hprevious hb.wide
    have heq' := decoder_predictLockedCodes hprevious (hb.wide.trans hb.le)
    refine .same ?_ fun _ => by simp only [comparison, heq, heq']
    simp only [comparison, heq]
    exact .ret trivial
  unfold previousPredictor
  split
  · exact .ret trivial
  · exact .ret trivial
  · rw [decoder_mirrorCodes]
    exact .ret trivial
  · exact hlocked false false
  · exact hlocked false true
  · exact hlocked true false
  · exact hlocked true true

theorem safe_readPredictor (mode width height : Nat)
    {history : List NormalizedPage} (hhistory : PagesOk width history)
    (shared : Option (List Nat)) :
    Steady b b' (readPredictor · mode width height history shared) fun _ => True := by
  unfold readPredictor
  refine .ite (fun _ => .ret trivial) fun _ => .ite (fun _ => ?_) fun _ => .ite (fun _ => ?_)
    fun _ => .ite (fun _ => ?_) fun _ => .ite (fun _ => ?_)
    fun _ => (safe_fail _).tracks
  · exact (safe_orFail _ _).next fun previous hprevious => (safe_previousPredictor mode width
      height (hhistory previous (mem_of_getLast? hprevious)).near).bind
      fun _ _ => .ret trivial
  · exact (safe_readReference history _).bind fun _ _ => .ret trivial
  · refine (safe_readReference history _).bind fun _ _ => ?_
    rw [decoder_mirrorCodes, pure_bind]
    exact .ret trivial
  · exact (safe_orFail _ _).next fun _ _ => .ret trivial

section

variable {width : Nat} (hwidth : width ≤ maxWidth)
  {history : List NormalizedPage}
include hwidth

theorem safe_readTemporalField {height : Nat} (hheight : ¬height > maxHeight)
    (hhistory : PagesOk width history) (shared : Option (List Nat)) :
    Steady b b' (readTemporalField · width height history shared)
      fun codes => codes.length = height * width := by
  refine (safe_readBits 4).next fun mode _ => (safe_fieldSize hwidth hheight).bind
    fun targetLen htarget => (safe_readPredictor mode width height hhistory shared).bind
    fun predictor _ => ?_
  subst htarget
  rw [Nat.mul_comm height]
  exact safe_readCellEncoding (field_lt hwidth (Nat.le_of_not_lt hheight)) predictor 4

theorem safe_readTemporalPage (hhistory : PagesOk width history) (shared : Option (List Nat)) :
    Steady b b' (readTemporalPage · width history shared) (PageOk width) := by
  have hlast : ∀ page, history.getLast? = some page → PageOk width page := fun page h =>
    hhistory page (mem_of_getLast? h)
  refine (safe_readTemporalFlags _).next fun flags _ => (safe_readTemporalHeight _).next
    fun height _ => (safe_failIf _ _).next fun _ hheight =>
    (safe_readTemporalField hwidth hheight hhistory shared).bind fun codes hcodes =>
    (safe_readTemporalGarbage hwidth fun codes h => ?_).bind fun garbageCodes hgarbage =>
    (safe_readTemporalComment hhistory).bind fun comment hcomment =>
    (safe_readTemporalOperation fun operation h => ?_).next fun operation hoperation => .ret
    ⟨Nat.le_of_not_lt hheight, hcodes, hcomment, hoperation, hgarbage⟩
  · obtain ⟨page, hpage, hcodes⟩ := Option.bind_eq_some_iff.mp h
    exact (hlast page hpage).garbage_length codes hcodes
  · obtain ⟨page, hpage, hoperation⟩ := Option.bind_eq_some_iff.mp h
    exact (hlast page hpage).operation_canonical operation hoperation

/-- The pages pushed in one round, and that there is room for them. -/
theorem safe_readTemporalStep {pageCount : Nat} (shared : Option (List Nat))
    (hhistory : PagesOk width history) (hroom : history.length < pageCount) :
    Steady b b' (readTemporalStep · width pageCount shared history)
      fun pushed => history.length + pushed.length ≤ pageCount ∧ PagesOk width pushed := by
  have hone : ∀ {page : NormalizedPage}, PageOk width page →
      history.length + [page].length ≤ pageCount ∧ PagesOk width [page] := fun h =>
    ⟨hroom, by simpa [PagesOk] using h⟩
  refine (safe_readBits 2).next fun mode _ => ?_
  split
  · exact (safe_readTemporalPage hwidth hhistory shared).bind fun _ h => .ret (hone h)
  · exact (safe_orFail _ _).next fun page hpage =>
      .ret (hone (hhistory page (mem_of_getLast? hpage)))
  · exact (safe_readReference history _).bind fun page hpage => .ret (hone (hhistory page hpage))
  · refine (safe_orFail _ _).next fun previous hprevious =>
      (safe_readVarUintPlus (by decide)).bind fun count _ =>
      (safe_usizeSub hroom.le).bind fun room hroom => (safe_failIf _ _).next
      fun _ hcount => .ret ⟨?_, fun page hpage => ?_⟩
    · rw [length_replicate]
      omega
    · rw [eq_of_mem_replicate hpage]
      exact hhistory previous (mem_of_getLast? hprevious)

theorem safe_readTemporalLoop {pageCount : Nat} (shared : Option (List Nat)) (rounds : Nat)
    (hhistory : PagesOk width history) (hroom : history.length ≤ pageCount) :
    Steady b b' (readTemporalLoop · width pageCount shared rounds history)
      fun pages => pages.length = pageCount ∧ PagesOk width pages := by
  induction rounds generalizing history with
  | zero =>
    simp only [Steady, readTemporalLoop]
    exact .ite (fun _ => (safe_fail _).tracks) fun hfull => .ret ⟨by omega, hhistory⟩
  | succ rounds ih =>
    simp only [Steady, readTemporalLoop]
    refine .ite (fun hmore => ?_) fun hfull => .ret ⟨by omega, hhistory⟩
    refine (safe_readTemporalStep hwidth shared hhistory hmore).bind fun pushed hpushed => ih ?_ ?_
    · exact forall_mem_append.mpr ⟨hhistory, hpushed.2⟩
    · rw [length_append]
      exact hpushed.1

theorem safe_readTemporalPages (pageCount : Nat) (shared : Option (List Nat)) :
    Steady b b' (readTemporalPages · width pageCount shared)
      fun pages => pages.length = pageCount ∧ PagesOk width pages :=
  .read fun _ => safe_readTemporalLoop hwidth shared _ (by simp [PagesOk]) (Nat.zero_le _)

/-! ## Documents -/

theorem safe_readSharedField : Steady b b' (readSharedField · width) fun _ => True := by
  refine safe_readVarUint.next fun height _ => (safe_failIf _ _).next fun _ hheight => ?_
  have hheight : ¬height > maxHeight := fun h => hheight (Or.inr h)
  refine (safe_fieldSize hwidth hheight).bind fun count hcount => ?_
  subst hcount
  exact (safe_readCellEncoding (field_lt hwidth (Nat.le_of_not_lt hheight)) none 4).weaken
    fun _ _ => trivial

theorem safe_readPages (revision pageCount : Nat) :
    Steady b b' (readPages · revision width pageCount)
      fun pages => pages.length = pageCount ∧ PagesOk width pages := by
  refine .ite (fun _ => safe_readTemporalPages hwidth pageCount none) fun _ =>
    .ite (fun _ => ?_) fun _ => ?_
  · exact (safe_readSharedField hwidth).bind fun shared _ =>
      safe_readTemporalPages hwidth pageCount (some shared)
  · refine (safe_readLinearLoop hwidth revision pageCount (by simp)).weaken fun pages h =>
      ⟨?_, h.2⟩
    rw [h.1, length_nil, Nat.zero_add]

end

/-- A segment that was read: what `normalizeDocument` asks of a document, and more. -/
structure SegmentOk (width : Nat) (pages : List NormalizedPage) : Prop where
  width_pos : 0 < width
  width_le : width ≤ maxWidth
  pages_pos : 0 < pages.length
  pages_le : pages.length ≤ maxSegmentPages
  pages_ok : PagesOk width pages

theorem safe_readBody :
    Steady b b' readBody fun document => SegmentOk document.1 document.2 := by
  refine (safe_readBits 8).next fun first _ => (safe_failIf _ _).next fun _ _ =>
    (safe_readBits 3).next fun revision _ => (safe_failIf _ _).next fun _ _ =>
    (safe_readBits 5).next fun width _ => .ite
    (fun _ => (safe_refuse (by simp)).tracks) fun hwidth => ?_
  refine safe_readVarUint.next fun pageCount _ =>
    .ite (fun _ => (safe_refuse (by simp)).tracks) fun hcount => ?_
  rw [not_or] at hwidth hcount
  refine safe_readBit.next fun extended _ => (safe_failIf _ _).next fun _ _ =>
    (safe_readPages (Nat.le_of_not_lt hwidth.2) revision pageCount).bind fun pages hpages =>
    .ret ?_
  exact ⟨Nat.pos_of_ne_zero hwidth.1, Nat.le_of_not_lt hwidth.2,
    hpages.1 ▸ Nat.pos_of_ne_zero hcount.1, hpages.1 ▸ Nat.le_of_not_lt hcount.2, hpages.2⟩

theorem safe_readDocument :
    Steady b b' readDocument fun document => SegmentOk document.1 document.2 :=
  (safe_readBody).bind fun _ h => safe_assertZeroPadding.next fun _ _ => .ret h

end Clearra.Proof.Ctk3
