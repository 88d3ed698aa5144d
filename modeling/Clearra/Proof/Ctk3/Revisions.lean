import Clearra.Proof.Ctk3.RoundTrip

/-!
# Which revision is written

Every revision is encoded and the shortest payload taken, but the first that is too large ends the
search. So the choice is the shortest of those that fit exactly where all fit or none does
(`encodeCtk3_shortest_iff`): sixteen pages with one long comment are refused because the compact
revision writes it on every page, though the temporal one writes it once.
-/

namespace Clearra.Proof.Ctk3

open Clearra.Ctk3 Lib List

/-! ## The choice -/

/-- The order of the choice: by length, then by revision. -/
def Before (first second : Nat × List Byte) : Prop :=
  first.2.length < second.2.length ∨ first.2.length = second.2.length ∧ first.1 ≤ second.1

theorem selectCandidate_before (first : Nat × List Byte) (candidates : List (Nat × List Byte)) :
    ∀ candidate ∈ first :: candidates, Before (candidates.foldl selectCandidate first) candidate := by
  induction candidates generalizing first with
  | nil => simp [Before]
  | cons next candidates ih =>
    have hkept : Before (selectCandidate first next) first ∧
        Before (selectCandidate first next) next := by
      unfold Before selectCandidate
      split <;> omega
    obtain ⟨hselected, hrest⟩ := forall_mem_cons.mp (ih (selectCandidate first next))
    have htrans : ∀ candidate, Before (selectCandidate first next) candidate →
        Before (candidates.foldl selectCandidate (selectCandidate first next)) candidate := by
      unfold Before at hselected ⊢
      omega
    simp only [forall_mem_cons]
    exact ⟨htrans first hkept.1, htrans next hkept.2, hrest⟩

/-- The revisions that apply: the two plain ones, and the one with a shared field if the pages have
    one. -/
def applicableRevisions (width : Nat) (pages : List NormalizedPage) :
    List (Nat × Option SharedFieldPredictor) :=
  (compactSchemaRevision, none) :: (temporalSchemaRevision, none) ::
    ((buildSharedField pages width).map fun shared => (sharedFieldSchemaRevision, some shared)).toList

/-- The payload of a revision, whatever its size: the bytes of the document and their checksum. -/
def PayloadOf (width : Nat) (pages : List NormalizedPage) (revision : Nat × Option SharedFieldPredictor)
    (candidate : Nat × List Byte) : Prop :=
  ∃ writer, writeDocument width pages revision.1 revision.2 .empty = .ok writer ∧
    candidate = (revision.1, writer.bytes ++ crcBytes (crc16 writer.bytes))

def FitsRevision (width : Nat) (pages : List NormalizedPage) (revision : Nat × Option SharedFieldPredictor) :
    Prop :=
  ∃ candidate, PayloadOf width pages revision candidate ∧ candidate.2.length ≤ maxPayloadBytes

theorem encodeNormalized_eq_ok {width : Nat} {pages : List NormalizedPage}
    {revision : Nat × Option SharedFieldPredictor} {candidate : Nat × List Byte} :
    encodeNormalized width pages revision.1 revision.2 = .ok candidate ↔
      PayloadOf width pages revision candidate ∧ candidate.2.length ≤ maxPayloadBytes := by
  have hlength : ∀ bytes : List Byte,
      (bytes ++ crcBytes (crc16 bytes)).length = bytes.length + 2 := fun bytes => by
    simp [crcBytes]
  rw [encodeNormalized, bind_eq_ok]
  constructor
  · rintro ⟨writer, hwriter, h⟩
    obtain ⟨_, hsize, h⟩ := bind_eq_ok.mp h
    obtain rfl := Except.ok.inj h
    rw [refuseIf_eq_ok] at hsize
    exact ⟨⟨writer, hwriter, rfl⟩, by rw [hlength]; omega⟩
  · rintro ⟨⟨writer, hwriter, rfl⟩, hsize⟩
    rw [hlength] at hsize
    refine ⟨writer, hwriter, bind_eq_ok.mpr ⟨(), refuseIf_eq_ok.mpr (by omega), rfl⟩⟩

theorem fitsRevision_iff {width : Nat} {pages : List NormalizedPage}
    {revision : Nat × Option SharedFieldPredictor} :
    FitsRevision width pages revision ↔
      ∃ candidate, encodeNormalized width pages revision.1 revision.2 = .ok candidate :=
  exists_congr fun _ => encodeNormalized_eq_ok.symm

/-- A revision has one payload. -/
theorem PayloadOf.unique {width : Nat} {pages : List NormalizedPage}
    {revision : Nat × Option SharedFieldPredictor} {first second : Nat × List Byte}
    (hfirst : PayloadOf width pages revision first) (hsecond : PayloadOf width pages revision second) :
    first = second := by
  obtain ⟨writer, hwriter, rfl⟩ := hfirst
  obtain ⟨other, hother, rfl⟩ := hsecond
  obtain rfl := Except.ok.inj (hwriter.symm.trans hother)
  rfl

section

variable {document : Ctk3Document} {pages : List NormalizedPage}

theorem mem_applicableRevisions {width : Nat} {revision : Nat × Option SharedFieldPredictor} :
    revision ∈ applicableRevisions width pages ↔
      revision = (compactSchemaRevision, none) ∨ revision = (temporalSchemaRevision, none) ∨
        ∃ shared, buildSharedField pages width = some shared ∧
          revision = (sharedFieldSchemaRevision, some shared) := by
  simp [applicableRevisions, eq_comm]

/-- Every revision is written before one is chosen. -/
theorem fitsRevision_of_encodeCtk3 (hpages : normalizeDocument document = .ok pages) {text : String}
    (h : encodeCtk3 document = .ok text) :
    ∀ revision ∈ applicableRevisions document.width pages, FitsRevision document.width pages revision := by
  rw [encodeCtk3, hpages, ok_bind] at h
  obtain ⟨compact, hcompact, h⟩ := bind_eq_ok.mp h
  obtain ⟨temporal, htemporal, h⟩ := bind_eq_ok.mp h
  obtain ⟨candidates, hcandidates, -⟩ := bind_eq_ok.mp h
  intro revision hrevision
  rw [fitsRevision_iff]
  rcases mem_applicableRevisions.mp hrevision with rfl | rfl | ⟨shared, hshared, rfl⟩
  · exact ⟨compact, hcompact⟩
  · exact ⟨temporal, htemporal⟩
  · rw [encodeShared, hshared] at hcandidates
    obtain ⟨encoded, hencoded, -⟩ := bind_eq_ok.mp hcandidates
    exact ⟨encoded, hencoded⟩

/-- The shared-field candidates are the payloads of that revision, if it applies. -/
theorem exists_encodeShared (hall : ∀ revision ∈ applicableRevisions document.width pages,
      FitsRevision document.width pages revision) :
    ∃ candidates, encodeShared document.width pages = .ok candidates ∧
      ∀ candidate, candidate ∈ candidates ↔ ∃ shared,
        buildSharedField pages document.width = some shared ∧
        PayloadOf document.width pages (sharedFieldSchemaRevision, some shared) candidate := by
  unfold encodeShared
  cases hshared : buildSharedField pages document.width with
  | none => exact ⟨[], rfl, by simp⟩
  | some shared =>
    obtain ⟨encoded, hencoded⟩ := fitsRevision_iff.mp
      (hall _ (mem_applicableRevisions.mpr (.inr (.inr ⟨shared, hshared, rfl⟩))))
    have hpayload := (encodeNormalized_eq_ok.mp hencoded).1
    refine ⟨[encoded], bind_eq_ok.mpr ⟨encoded, hencoded, rfl⟩, fun candidate => ?_⟩
    rw [mem_singleton]
    constructor
    · rintro rfl
      exact ⟨shared, rfl, hpayload⟩
    · rintro ⟨other, hother, hcandidate⟩
      obtain rfl := Option.some.inj hother
      exact hcandidate.unique hpayload

/-- Where every revision that applies fits, the first of the shortest is the text. -/
theorem encodeCtk3_of_fitsRevision (hpages : normalizeDocument document = .ok pages)
    (hall : ∀ revision ∈ applicableRevisions document.width pages,
      FitsRevision document.width pages revision) :
    ∃ revision ∈ applicableRevisions document.width pages, ∃ selected,
      PayloadOf document.width pages revision selected ∧
      encodeCtk3 document = .ok (ctk64Text selected.2) ∧
      ∀ other ∈ applicableRevisions document.width pages, ∀ candidate,
        PayloadOf document.width pages other candidate → Before selected candidate := by
  obtain ⟨compact, hcompact⟩ := fitsRevision_iff.mp (hall _ (mem_applicableRevisions.mpr (.inl rfl)))
  obtain ⟨temporal, htemporal⟩ := fitsRevision_iff.mp (hall _ (mem_applicableRevisions.mpr (.inr (.inl rfl))))
  obtain ⟨candidates, hcandidates, hshared⟩ := exists_encodeShared hall
  have hpayloads : ∀ candidate, candidate ∈ compact :: temporal :: candidates ↔
      ∃ revision ∈ applicableRevisions document.width pages,
        PayloadOf document.width pages revision candidate := by
    intro candidate
    rw [mem_cons, mem_cons, hshared]
    constructor
    · rintro (rfl | rfl | ⟨shared, hbuilt, hpayload⟩)
      · exact ⟨_, mem_applicableRevisions.mpr (.inl rfl), (encodeNormalized_eq_ok.mp hcompact).1⟩
      · exact ⟨_, mem_applicableRevisions.mpr (.inr (.inl rfl)),
          (encodeNormalized_eq_ok.mp htemporal).1⟩
      · exact ⟨_, mem_applicableRevisions.mpr (.inr (.inr ⟨shared, hbuilt, rfl⟩)), hpayload⟩
    · rintro ⟨revision, hrevision, hpayload⟩
      rcases mem_applicableRevisions.mp hrevision with rfl | rfl | ⟨shared, hbuilt, rfl⟩
      · exact .inl (hpayload.unique (encodeNormalized_eq_ok.mp hcompact).1)
      · exact .inr (.inl (hpayload.unique (encodeNormalized_eq_ok.mp htemporal).1))
      · exact .inr (.inr ⟨shared, hbuilt, hpayload⟩)
  obtain ⟨revision, hrevision, hpayload⟩ :=
    (hpayloads _).mp (selectCandidate_mem compact (temporal :: candidates))
  refine ⟨revision, hrevision, _, hpayload, ?_, fun other hother candidate hcandidate =>
    selectCandidate_before _ _ candidate ((hpayloads candidate).mpr ⟨other, hother, hcandidate⟩)⟩
  rw [encodeCtk3, hpages, ok_bind, show encodeNormalized document.width pages compactSchemaRevision
    none = .ok compact from hcompact, ok_bind, show encodeNormalized document.width pages
    temporalSchemaRevision none = .ok temporal from htemporal, ok_bind, hcandidates, ok_bind]
  rfl

end

/-- A document is encoded in the first of its shortest revisions whenever one fits, exactly if all fit
    or none does. -/
theorem encodeCtk3_shortest_iff (document : Ctk3Document) (pages : List NormalizedPage)
    (hpages : normalizeDocument document = .ok pages) :
    ((∃ revision ∈ applicableRevisions document.width pages, FitsRevision document.width pages revision) →
      ∃ revision ∈ applicableRevisions document.width pages, ∃ selected,
        PayloadOf document.width pages revision selected ∧
        encodeCtk3 document = .ok (ctk64Text selected.2) ∧
        ∀ other ∈ applicableRevisions document.width pages, ∀ candidate,
          PayloadOf document.width pages other candidate → Before selected candidate) ↔
    (∀ revision ∈ applicableRevisions document.width pages, FitsRevision document.width pages revision) ∨
      ∀ revision ∈ applicableRevisions document.width pages, ¬FitsRevision document.width pages revision := by
  constructor
  · intro h
    by_cases hsome : ∃ revision ∈ applicableRevisions document.width pages,
        FitsRevision document.width pages revision
    · obtain ⟨-, -, selected, -, hencode, -⟩ := h hsome
      exact .inl (fitsRevision_of_encodeCtk3 hpages hencode)
    · exact .inr fun revision hrevision hfits => hsome ⟨revision, hrevision, hfits⟩
  · rintro (hall | hnone) ⟨revision, hrevision, hfits⟩
    · exact encodeCtk3_of_fitsRevision hpages hall
    · exact absurd hfits (hnone revision hrevision)

/-- The pages of three times `quizPage`. -/
def quizPages : List NormalizedPage :=
  (normalizeDocument ⟨4, [quizPage, quizPage, quizPage]⟩).toOption.getD []

/-- Three equal pages with a field, an operation and a comment: all three revisions apply and fit. -/
theorem encodeCtk3_shortest_iff_quizPages : ∃ pages,
    normalizeDocument ⟨4, [quizPage, quizPage, quizPage]⟩ = .ok pages ∧
      (applicableRevisions 4 pages).map Prod.fst =
        [compactSchemaRevision, temporalSchemaRevision, sharedFieldSchemaRevision] ∧
      ∃ revision ∈ applicableRevisions 4 pages, ∃ selected, PayloadOf 4 pages revision selected ∧
        encodeCtk3 ⟨4, [quizPage, quizPage, quizPage]⟩ = .ok (ctk64Text selected.2) ∧
        ∀ other ∈ applicableRevisions 4 pages, ∀ candidate,
          PayloadOf 4 pages other candidate → Before selected candidate := by
  have hfit : ∀ revision ∈ applicableRevisions 4 quizPages, (encodeNormalized 4 quizPages revision.1
      revision.2).toOption.isSome = true := by decide +kernel
  have hall : ∀ revision ∈ applicableRevisions 4 quizPages, FitsRevision 4 quizPages revision := by
    intro revision hrevision
    obtain ⟨candidate, hcandidate⟩ := Option.isSome_iff_exists.mp (hfit revision hrevision)
    exact fitsRevision_iff.mpr ⟨candidate, toOption_eq_some.mp hcandidate⟩
  have hpages : normalizeDocument ⟨4, [quizPage, quizPage, quizPage]⟩ = .ok quizPages := by
    decide +kernel
  exact ⟨quizPages, hpages, by decide +kernel, (encodeCtk3_shortest_iff _ _ hpages).mpr (.inl hall)
      ⟨_, mem_applicableRevisions.mpr (.inl rfl), hall _ (mem_applicableRevisions.mpr (.inl rfl))⟩⟩

/-! ## A comment on every page -/

/-- A write that always adds this many bits. -/
def Grows (f : Write) (count : Nat) : Prop :=
  ∀ w, (f w).map BitWriter.bitLen = .ok (w.bitLen + count)

theorem Grows.seq {f g : Write} {m n : Nat} (hf : Grows f m) (hg : Grows g n) :
    Grows (f >=> g) (m + n) := by
  intro w
  obtain ⟨v, hv, hlen⟩ := map_eq_ok.mp (hf w)
  change (f w >>= g).map _ = _
  rw [hv, ok_bind, hg v, hlen, Nat.add_assoc]

theorem bitLen_writeBitsOf (bit : Nat → Bool) (width : Nat) (w : BitWriter) :
    (writeBitsOf bit width w).bitLen = w.bitLen + width := by
  have h := congrArg length (bits_writeBitsOf bit width w)
  simpa [bits] using h

theorem Grows.append {f : Write} {count : Nat} (h : Grows f count) :
    Grows (fun w => f .empty >>= (append · w)) count := by
  intro w
  obtain ⟨c, hc, hlen⟩ := map_eq_ok.mp (h .empty)
  have hcount : c.bitLen = count := hlen.trans (Nat.zero_add count)
  dsimp only
  rw [hc, ok_bind, ← hcount, ← bitLen_writeBitsOf]
  rfl

theorem grows_writeBit (value : Bool) : Grows (writeBit value) 1 := fun _ => rfl

theorem grows_writeBits {value width : Nat} (hvalue : value < 2 ^ width) (hwidth : width ≤ 32) :
    Grows (writeBits value width) width := by
  intro w
  rw [writeBits, if_neg (by omega), ← bitLen_writeBitsOf]
  rfl

theorem grows_writeBytes (bytes : List Byte) : Grows (writeBytes bytes) (bytes.length * 8) := by
  induction bytes with
  | nil => exact fun w => rfl
  | cons byte bytes ih =>
    rw [length_cons, Nat.succ_mul, Nat.add_comm]
    exact (grows_writeBits byte.isLt (by decide)).seq ih

/-- A page that is only a comment. -/
def remark (comment : String) : NormalizedPage := ⟨0, [], comment, none, .standard, none⟩

def remarks (comment : String) : List NormalizedPage := replicate 16 (remark comment)

def remarksDocument (comment : String) : Ctk3Document :=
  ⟨1, replicate 16 ⟨0, [], comment, none, .standard, none⟩⟩

/-- Whether the sixteen pages fit, by the bits of their pages. -/
theorem encodeNormalized_remarks (comment : String) (revision : Nat) {count : Nat}
    (hrevision : revision < 8) (h : Grows (writePages 1 (remarks comment) revision none) count) :
    (∃ encoded, encodeNormalized 1 (remarks comment) revision none = .ok encoded) ↔
      (count + 34) / 8 + 2 ≤ maxPayloadBytes := by
  have hmagic : Grows (writeBits magic 8) 8 := fun _ => rfl
  have hnumber := grows_writeBits (show revision < 2 ^ 3 from hrevision) (by decide)
  have hwidth : Grows (writeBits 0 5) 5 := fun _ => rfl
  have hpages : Grows (writeVarUint 16) 10 := fun _ => rfl
  obtain ⟨w, hw, hlen⟩ := map_eq_ok.mp
    (hmagic.seq (hnumber.seq (hwidth.seq (hpages.seq ((grows_writeBit false).seq h)))) .empty)
  have hbytes : w.bytes.length = (count + 34) / 8 := by
    rw [w.length_eq, hlen]
    change (0 + _ + 7) / 8 = _
    congr 1
    omega
  change (∃ encoded, (writeDocument 1 (remarks comment) revision none .empty >>= _) = _) ↔ _
  rw [show writeDocument 1 (remarks comment) revision none .empty = .ok w from hw, ok_bind]
  simp [bind_eq_ok, refuseIf_eq_ok, hbytes, pure, Except.pure]

section

variable {comment : String} (hsize : (commentBytes comment).length = 2 ^ 20) (hne : comment ≠ "")
include hsize

theorem grows_writeCommentLiteral : Grows (writeCommentLiteral comment) 8388643 := by
  have hcount : Grows (writeVarUint (2 ^ 20)) 35 := fun w => rfl
  have hbytes := grows_writeBytes (commentBytes comment)
  rw [hsize] at hbytes
  rw [writeCommentLiteral, hsize]
  exact hcount.seq hbytes

include hne

theorem grows_writeCompactPage : Grows (writeCompactPage (remark comment) none) 8388656 ∧
    Grows (writeCompactPage (remark comment) (some (remark comment))) 8388652 := by
  have hcomment : Grows (if comment = "" then pure else writeCommentLiteral comment) 8388643 := by
    rw [if_neg hne]
    exact grows_writeCommentLiteral hsize
  have hflags : Grows (writeBits 0 2) 2 := fun _ => rfl
  have hheight : Grows (writeVarUint 0) 5 := fun _ => rfl
  have hfirst : Grows (writeBestCellEncoding [] none 3 true) 3 := fun _ => rfl
  have hnext : Grows (writeBestCellEncoding [] (some []) 3 true) 3 := fun _ => rfl
  have hnone : Grows pure 0 := fun _ => rfl
  have hbit := grows_writeBit
  have hrest := hnone.seq (hcomment.seq hnone)
  exact ⟨hflags.seq ((hbit _).seq ((hbit _).seq ((hbit _).seq (hheight.seq (hfirst.seq hrest))))),
    hflags.seq ((hbit _).seq ((hbit _).seq ((hbit _).seq ((hbit _).seq (hnext.seq hrest)))))⟩

theorem grows_writeCompactPages (count : Nat) :
    Grows (writeCompactPages (some (remark comment)) (replicate count (remark comment)))
      (count * 8388652) := by
  induction count with
  | zero => exact fun _ => rfl
  | succ count ih =>
    rw [Nat.succ_mul, Nat.add_comm (count * _)]
    exact (grows_writeCompactPage hsize hne).2.seq ih

/-- The first page is written in full, the others as one run. -/
theorem grows_writeTemporalPages : Grows (writeTemporalPages (remarks comment) 1 none) 8388671 := by
  have hseven : Grows (writeBits 7 3) 3 := fun _ => rfl
  have hcomment : Grows (writeTemporalComment (remarks comment) .empty 0 comment) 8388646 := by
    rw [writeTemporalComment, if_neg hne]
    exact (hseven.seq (grows_writeCommentLiteral hsize)).append
  have hmode : Grows (writeBits 0 2) 2 := fun _ => rfl
  have hheight : Grows (writeVarUint 0) 5 := fun _ => rfl
  have hplain : Grows (writeBits 0 4 >=> pure >=> writeBestCellEncoding [] none 4 true) 8 :=
    fun _ => rfl
  have hfield : Grows (writeTemporalField (remarks comment) 1 none .empty 0 (remark comment)) 8 :=
    hplain.append
  have hbit := grows_writeBit
  have hpage : Grows (writePageCandidates (remarks comment) 1 none .empty 0 (remark comment)) 8388664 :=
    (hmode.seq ((hbit _).seq (hheight.seq (hfield.seq ((hbit _).seq (hcomment.seq (hbit _))))))).append
  have hcount : repeatCount (remarks comment) 1 (remark comment) = 15 := by
    simp [repeatCount, previousPage, remarks]
  have hrun : ∀ context, Grows (writeTemporalLoop (remarks comment) 1 none 15 1 context) 7 := by
    intro context w
    change (repeatRun (repeatCount (remarks comment) 1 (remark comment)) >>= _).map _ = _
    rw [hcount]
    rfl
  exact hpage.seq (hrun _)

end

theorem exists_longComment :
    ∃ comment : String, comment.utf8ByteSize = 2 ^ 20 ∧ asksForQuiz comment = false := by
  have hsize : ∀ count, (String.ofList (replicate count 'a')).utf8ByteSize = count := by
    intro count
    rw [String.utf8ByteSize_ofList]
    induction count with
    | zero => rfl
    | succ count ih => rw [replicate_succ, String.utf8Len_cons, ih]; rfl
  have hquiz : ∀ count, asksForQuiz (String.ofList (replicate count 'a')) = false := by
    intro count
    rw [asksForQuiz, String.toList_ofList]
    cases count <;> rfl
  exact ⟨_, hsize _, hquiz _⟩

/-- The temporal revision writes the comment once, the compact one sixteen times: that is too much,
    and nothing is encoded. -/
theorem encodeCtk3_remarks : ∃ comment : String,
    normalizeDocument (remarksDocument comment) = .ok (remarks comment) ∧
    (∃ temporal, encodeNormalized 1 (remarks comment) temporalSchemaRevision none = .ok temporal) ∧
    ∀ text, encodeCtk3 (remarksDocument comment) ≠ .ok text := by
  obtain ⟨comment, hbytes, hquiz⟩ := exists_longComment
  have hsize : (commentBytes comment).length = 2 ^ 20 := (length_map _).trans hbytes
  have hne : comment ≠ "" := by
    rintro rfl
    exact absurd hbytes (by decide)
  have hpages : normalizeDocument (remarksDocument comment) = .ok (remarks comment) := by
    refine (mapM_eq_ok_map (g := fun _ => remark comment) ?_).trans rfl
    rintro ⟨page, index⟩ hentry
    obtain rfl : page = _ := eq_of_mem_replicate (fst_mem_of_mem_zipIdx hentry)
    simp [normalizePage, hbytes, hquiz, remark, trimHeight, maxCommentBytes]
    rfl
  refine ⟨comment, hpages, ?_, fun text htext => ?_⟩
  · exact (encodeNormalized_remarks comment temporalSchemaRevision (by decide)
      (grows_writeTemporalPages hsize hne)).mpr (by decide)
  · rw [encodeCtk3, hpages, ok_bind] at htext
    obtain ⟨compact, hcompact, -⟩ := bind_eq_ok.mp htext
    exact absurd ((encodeNormalized_remarks comment compactSchemaRevision (by decide)
      ((grows_writeCompactPage hsize hne).1.seq (grows_writeCompactPages hsize hne 15))).mp
      ⟨compact, hcompact⟩) (by decide)

end Clearra.Proof.Ctk3
