import Clearra.Ctk3.Bundle
import Clearra.Proof.Ctk3.RoundTrip

/-!
# Bundles of compact segments

What `encode_ctk3_bundle` has checked of the segments (`Fits`) is all that the other two writers and
the decoder check, so where it succeeds all of them do, and with the same text.
-/

namespace Clearra.Proof.Ctk3

open Clearra.Ctk3 Lib List

/-- A document, the payload of its compact segment and its normal form. -/
structure Part where
  document : Ctk3Document
  payload : List Char
  normal : Ctk3Document

def Part.segment (part : Part) : String := String.ofList (ctk3Prefix ++ part.payload)

structure PartOk (b : Build) (part : Part) : Prop where
  encodes : encodeCtk3Compact part.document = .ok part.segment
  normalises : normalForm part.document = .ok part.normal
  chars : ∀ c ∈ part.payload, c ∈ ctk64Alphabet
  valid : validateExactAlphabet part.payload .ctk64 = .ok ()
  decodes : decodeSinglePayload b .ctk64 part.payload = .ok part.normal

variable {b : Build}

theorem exists_part (hb : 32 ≤ b.pointerBits) {document : Ctk3Document} {segment : String}
    (h : encodeCtk3Compact document = .ok segment) :
    ∃ part, PartOk b part ∧ part.document = document ∧ part.segment = segment := by
  have hencodes := h
  rw [encodeCtk3Compact] at h
  obtain ⟨pages, hpages, h⟩ := bind_eq_ok.mp h
  obtain ⟨compact, hcompact, h⟩ := bind_eq_ok.mp h
  cases h
  obtain ⟨-, hsegment, hencodable⟩ := normalizeDocument_eq_ok hpages
  obtain ⟨normal, hnormal, hdocument⟩ := exists_normalForm hpages
  obtain ⟨hpos, hmax, hdecodes⟩ :=
    decodeSinglePayload_encodeNormalized hb hsegment hencodable (by simp) (by simp) hcompact
  exact ⟨⟨document, encodeCtk64 compact.2, normal⟩, ⟨hencodes, hnormal,
    fun c => mem_encodeCtk64 compact.2, validate_encodeCtk64 _ hpos hmax, hdecodes.trans hdocument⟩,
    rfl, rfl⟩

theorem exists_parts (hb : 32 ≤ b.pointerBits) {documents : List Ctk3Document}
    {segments : List String} (h : documents.mapM encodeCtk3Compact = .ok segments) :
    ∃ parts : List Part, (∀ part ∈ parts, PartOk b part) ∧
      parts.map Part.document = documents ∧ parts.map Part.segment = segments := by
  induction documents generalizing segments with
  | nil =>
    cases h
    exact ⟨[], by simp⟩
  | cons document documents ih =>
    rw [mapM_cons, bind_eq_ok] at h
    obtain ⟨segment, hsegment, h⟩ := h
    obtain ⟨rest, hrest, h⟩ := bind_eq_ok.mp h
    cases h
    obtain ⟨part, hpart, rfl, rfl⟩ := exists_part hb hsegment
    obtain ⟨parts, hparts, rfl, rfl⟩ := ih hrest
    exact ⟨part :: parts, forall_mem_cons.mpr ⟨hpart, hparts⟩, rfl, rfl⟩

section

variable {b : Build} {part : Part} (h : PartOk b part)
include h

theorem PartOk.width_eq : part.normal.width = part.document.width := by
  obtain ⟨-, -, hwidth, -⟩ := normalForm_eq_ok.mp h.normalises
  exact hwidth

theorem PartOk.pageCount_eq : part.normal.pages.length = part.document.pages.length := by
  obtain ⟨pages, hpages, -, hplain⟩ := normalForm_eq_ok.mp h.normalises
  have hlength := congrArg List.length hplain
  rw [(normalizeDocument_eq_ok hpages).1, tidyPages, length_map, length_map] at hlength
  exact hlength

theorem PartOk.extract : extractExactPayload part.segment.toList = .ok (.ctk64, part.payload) := by
  rw [Part.segment, String.toList_ofList]
  exact extractExactPayload_ctk64Text h.chars h.valid

theorem PartOk.segment_decodes {document : Ctk3Document}
    (hdecodes : decodeCtk3Segment b part.segment = .ok document) : document = part.normal := by
  rw [decodeCtk3Segment] at hdecodes
  obtain ⟨_, -, hdecodes⟩ := bind_eq_ok.mp hdecodes
  obtain ⟨_, -, hdecodes⟩ := bind_eq_ok.mp hdecodes
  rw [h.extract, ok_bind, decodeFound, h.decodes] at hdecodes
  exact (Except.ok.inj hdecodes).symm

end

theorem intercalate_cons (payload : List Char) (payloads : List (List Char)) :
    ['.'].intercalate (payload :: payloads) = payload ++ payloads.flatMap ('.' :: ·) := by
  induction payloads generalizing payload with
  | nil => simp
  | cons next payloads ih =>
    rw [intercalate_cons_cons, ih]
    simp

/-! ## What is checked -/

/-- The widths agree and the pages fit, after segments of `width` with `pageCount` pages. -/
def Fits : List Part → Option Nat → Nat → Prop
  | [], _, _ => True
  | part :: parts, width, pageCount =>
    (∀ expected ∈ width, part.document.width = expected) ∧
    pageCount + part.document.pages.length ≤ maxBundlePages ∧
    Fits parts (some part.document.width) (pageCount + part.document.pages.length)

theorem checkedAdd_eq_ok {m n k : Nat} :
    checkedAdd b m n = .ok k ↔ m + n < 2 ^ b.pointerBits ∧ m + n = k := by
  simp only [checkedAdd, bind_eq_ok, refuseIf_eq_ok, exists_const, pure, Except.pure,
    Except.ok.injEq, Nat.not_le]

theorem checkedAdd_of_le (hb : 32 ≤ b.pointerBits) {m n : Nat} (h : m + n ≤ maxBundlePages) :
    checkedAdd b m n = .ok (m + n) := by
  refine checkedAdd_eq_ok.mpr ⟨?_, rfl⟩
  calc m + n ≤ maxBundlePages := h
    _ < 2 ^ 32 := by decide
    _ ≤ 2 ^ b.pointerBits := Nat.pow_le_pow_right (by decide) hb

theorem Fits.width_eq {parts : List Part} {width pageCount : Nat}
    (h : Fits parts (some width) pageCount) : ∀ part ∈ parts, part.document.width = width := by
  induction parts generalizing width pageCount with
  | nil => simp
  | cons part parts ih =>
    obtain ⟨hwidth, -, hrest⟩ := h
    have hwidth := hwidth width rfl
    rw [hwidth] at hrest
    exact forall_mem_cons.mpr ⟨hwidth, ih hrest⟩

section

variable {b : Build} {parts : List Part} (hparts : ∀ part ∈ parts, PartOk b part)
include hparts

/-- What passes the checks fits, and its payloads are those of the parts. -/
theorem fits_of_validateSegments {index pageCount : Nat} {width : Option Nat}
    {payloads : List (List Char)}
    (h : validateSegments b ((parts.map Part.segment).zipIdx index) width pageCount = .ok payloads) :
    payloads = parts.map Part.payload ∧ Fits parts width pageCount := by
  induction parts generalizing index width pageCount payloads with
  | nil => exact ⟨(Except.ok.inj h).symm, trivial⟩
  | cons part parts ih =>
    obtain ⟨hpart, hrest⟩ := forall_mem_cons.mp hparts
    rw [map_cons, zipIdx_cons, validateSegments] at h
    simp only [mapError_eq_ok, bind_eq_ok, refuseIf_eq_ok, checkedAdd_eq_ok] at h
    obtain ⟨found, hfound, _, -, document, hdocument, _, hwidth, count, ⟨-, rfl⟩, _, hlimit, rest,
      hvalid, heq⟩ := h
    rw [hpart.extract] at hfound
    cases hfound
    obtain rfl := hpart.segment_decodes hdocument
    rw [hpart.pageCount_eq, hpart.width_eq] at hvalid
    rw [hpart.pageCount_eq] at hlimit
    obtain ⟨rfl, hfits⟩ := ih hrest hvalid
    refine ⟨(Except.ok.inj heq).symm, fun expected hexpected => ?_, Nat.le_of_not_lt hlimit, hfits⟩
    rw [Option.mem_def] at hexpected
    rw [hexpected, hpart.width_eq] at hwidth
    simpa using hwidth

/-! ## What is decoded -/

theorem decodeSegments_of_fits (index : Nat) {width : Nat} {pages : List Ctk3Page}
    (hpages : pages.length ≤ maxBundlePages) (h : Fits parts (some width) pages.length) :
    decodeSegments b ((parts.map Part.payload).zipIdx index) (some width) pages =
      .ok (some width, pages ++ parts.flatMap fun part => part.normal.pages) := by
  induction parts generalizing index pages with
  | nil => rw [flatMap_nil, append_nil]; rfl
  | cons part parts ih =>
    obtain ⟨hpart, hrest⟩ := forall_mem_cons.mp hparts
    obtain ⟨hwidth, hlimit, hfits⟩ := h
    have hwidth := hwidth width rfl
    rw [hwidth] at hfits
    have hlength : (pages ++ part.normal.pages).length =
        pages.length + part.document.pages.length := by
      rw [length_append, hpart.pageCount_eq]
    have hroom : ¬part.normal.pages.length > maxBundlePages - pages.length := by
      rw [hpart.pageCount_eq]
      omega
    have hagree : ¬(some width).any (fun expected => part.normal.width ≠ expected) = true := by
      simp [hpart.width_eq, hwidth]
    rw [map_cons, zipIdx_cons, decodeSegments, hpart.decodes, ok_bind,
      refuseIf_of_not hagree, ok_bind, bundleRoom, if_pos hpages, ok_bind,
      refuseIf_of_not hroom, ok_bind, hpart.width_eq, hwidth,
      ih hrest (index + 1) (hlength ▸ hlimit) (hlength ▸ hfits), flatMap_cons, append_assoc]

/-- The first segment sets the width. -/
theorem decodeBundlePayloads_of_fits {first : Part} {rest : List Part} (hcons : parts = first :: rest)
    (hcount : parts.length ≤ maxBundlePages) (h : Fits parts none 0) :
    decodeBundlePayloads b (parts.map Part.payload) =
      .ok ⟨first.document.width, parts.flatMap fun part => part.normal.pages⟩ := by
  subst hcons
  obtain ⟨hfirst, hrest⟩ := forall_mem_cons.mp hparts
  obtain ⟨-, hlimit, hfits⟩ := h
  rw [Nat.zero_add] at hlimit hfits
  have hroom : ¬first.normal.pages.length > maxBundlePages - ([] : List Ctk3Page).length := by
    rw [hfirst.pageCount_eq]
    exact Nat.not_lt.mpr hlimit
  rw [← hfirst.pageCount_eq] at hlimit hfits
  have hsegments := decodeSegments_of_fits hrest 1 hlimit hfits
  rw [decodeBundlePayloads, refuseIf_of_not (by rw [length_map]; omega), ok_bind,
    map_cons, zipIdx_cons, decodeSegments, hfirst.decodes, ok_bind,
    refuseIf_of_not (by simp), ok_bind, bundleRoom,
    if_pos (show ([] : List Ctk3Page).length ≤ maxBundlePages from Nat.zero_le _), ok_bind,
    refuseIf_of_not hroom, ok_bind, hfirst.width_eq, nil_append, hsegments, ok_bind]
  rfl

theorem extractExactBundle_of_parts (hmany : 2 ≤ parts.length) :
    extractExactBundle (ctk3BundlePrefix ++ ['.'].intercalate (parts.map Part.payload)) =
      .ok (some (parts.map Part.payload)) := by
  have hchars : ∀ payload ∈ parts.map Part.payload, ∀ c ∈ payload, c ∈ ctk64Alphabet := by
    intro payload hpayload
    obtain ⟨part, hmem, rfl⟩ := mem_map.mp hpayload
    exact (hparts part hmem).chars
  have hvalid : ∀ payload ∈ parts.map Part.payload,
      validateExactAlphabet payload .ctk64 = .ok () := by
    intro payload hpayload
    obtain ⟨part, hmem, rfl⟩ := mem_map.mp hpayload
    exact (hparts part hmem).valid
  have hlength : (parts.map Part.payload).length = parts.length := length_map _
  revert hchars hvalid hlength
  generalize parts.map Part.payload = payloads
  intro hchars hvalid hlength
  have hne : payloads ≠ [] := by
    rintro rfl
    rw [← hlength, length_nil] at hmany
    omega
  have hmem : ∀ c ∈ ['.'].intercalate payloads, c = '.' ∨ c ∈ ctk64Alphabet := by
    obtain ⟨payload, rest, rfl⟩ := exists_cons_of_ne_nil hne
    obtain ⟨hfirst, hrest⟩ := forall_mem_cons.mp hchars
    intro c hc
    rw [intercalate_cons, mem_append, mem_flatMap] at hc
    rcases hc with hc | ⟨next, hnext, hc⟩
    · exact .inr (hfirst c hc)
    · exact (mem_cons.mp hc).imp_right (hrest next hnext c)
  have hsplit : (['.'].intercalate payloads).splitOn '.' = payloads :=
    splitOn_intercalate '.' (fun payload hpayload hdot =>
      absurd (hchars payload hpayload '.' hdot) (by decide)) hne
  have hspace : ∀ c ∈ ctk3BundlePrefix ++ ['.'].intercalate payloads, isWhitespace c = false := by
    rw [forall_mem_append]
    refine ⟨by simp [ctk3BundlePrefix, isWhitespace], fun c hc => ?_⟩
    rcases hmem c hc with rfl | hc
    · rfl
    · exact not_whitespace_of_mem c hc
  have hstarts : startsWithIgnoreAsciiCase (ctk3BundlePrefix ++ ['.'].intercalate payloads)
      ctk3BundlePrefix = true := by
    rw [startsWithIgnoreAsciiCase, take_left]
    decide
  rw [extractExactBundle, trim_eq_self hspace, if_pos hstarts, drop_left, bundleSegments, hsplit,
    rejectIf, refuseIf_of_not (by omega), ok_bind, forM_eq_ok hvalid]
  rfl

end

/-! ## What is written -/

/-- The writer appends `text` and answers `a`, whatever is there already. -/
def Writes {α : Type} (f : WriteInto α) (a : α) (text : List Char) : Prop :=
  ∀ out, f out = .ok a (out ++ text)

namespace Writes

variable {α β : Type} {f : WriteInto α} {g : α → WriteInto β} {a : α} {c : β} {s t : List Char}

theorem bind (hf : Writes f a s) (hg : Writes (g a) c t) : Writes (f >>= g) c (s ++ t) := by
  intro out
  change EStateM.bind f g out = _
  rw [EStateM.bind, hf out, ← append_assoc]
  exact hg (out ++ s)

theorem all (text : List Char) : Writes (writeAll text) () text := fun _ => rfl

theorem done (a : α) : Writes (pure a) a [] := fun out => by
  rw [append_nil]
  rfl

theorem checked {x : Except Stop α} (hx : x = .ok a) (hg : Writes (g a) c t) :
    Writes (orStop x >>= g) c t := by
  rw [hx]
  exact hg

end Writes

theorem writes_payloads (payloads : List (List Char)) (index : Nat) :
    Writes (writePayloads payloads (index + 1)) () (payloads.flatMap ('.' :: ·)) := by
  induction payloads generalizing index with
  | nil => exact .done ()
  | cons payload payloads ih =>
    exact (Writes.all ['.']).bind ((Writes.all payload).bind (ih (index + 1)))

theorem writes_segmentPayload (part : Part) :
    Writes (writeSegmentPayload part.segment) () part.payload := by
  have hprefix : ctk3Prefix.isPrefixOf? part.segment.toList = some part.payload := by
    rw [Part.segment, String.toList_ofList]
    rfl
  rw [writeSegmentPayload, hprefix]
  exact .all part.payload

section

variable {b : Build} (hb : 32 ≤ b.pointerBits) {parts : List Part}
  (hparts : ∀ part ∈ parts, PartOk b part)
include hparts

theorem writes_bundleInto {segments : List String} (hpayloads : bundlePayloads b segments =
      .ok (parts.map Part.payload)) (hmany : 2 ≤ parts.length) :
    Writes (encodeCtk3BundleInto b segments) ()
      (ctk3BundlePrefix ++ ['.'].intercalate (parts.map Part.payload)) := by
  obtain ⟨first, second, rest, rfl⟩ : ∃ first second rest, parts = first :: second :: rest := by
    match parts, hmany with
    | first :: second :: rest, _ => exact ⟨first, second, rest, rfl⟩
  have htext : ['.'].intercalate ((first :: second :: rest).map Part.payload) = first.payload ++
      ((second :: rest).map Part.payload).flatMap ('.' :: ·) := intercalate_cons _ _
  refine .checked hpayloads ((Writes.all _).bind ?_)
  rw [htext]
  exact (Writes.all first.payload).bind (writes_payloads _ 0)

include hb

theorem writes_segments {width pageCount index : Nat} (h : Fits parts (some width) pageCount) :
    Writes (writeSegments b width (parts.map Part.document) index pageCount) ()
      ((parts.map Part.payload).flatMap ('.' :: ·)) := by
  induction parts generalizing index pageCount with
  | nil => exact .done ()
  | cons part parts ih =>
    obtain ⟨hpart, hrest⟩ := forall_mem_cons.mp hparts
    obtain ⟨hwidth, hlimit, hfits⟩ := h
    have hwidth := hwidth width rfl
    rw [hwidth] at hfits
    refine .checked (refuseIf_of_not (not_not.mpr hwidth)) (.checked (checkedAdd_of_le hb hlimit)
      (.checked (refuseIf_of_not (Nat.not_lt.mpr hlimit)) (.checked
      (mapError_eq_ok.mpr hpart.encodes) ?_)))
    exact (Writes.all ['.']).bind ((writes_segmentPayload part).bind (ih hrest hfits))

theorem writes_segmentedDocuments (hmany : 2 ≤ parts.length) (hcount : parts.length ≤ maxBundlePages)
    (h : Fits parts none 0) :
    Writes (encodeCtk3SegmentedDocumentsInto b (parts.map Part.document)) ()
      (ctk3BundlePrefix ++ ['.'].intercalate (parts.map Part.payload)) := by
  obtain ⟨first, rest, rfl⟩ : ∃ first rest, parts = first :: rest := by
    match parts, hmany with
    | first :: rest, _ => exact ⟨first, rest, rfl⟩
  obtain ⟨hfirst, hrest⟩ := forall_mem_cons.mp hparts
  obtain ⟨-, hlimit, hfits⟩ := h
  rw [Nat.zero_add] at hlimit hfits
  have hlength : ((first :: rest).map Part.document).length = (first :: rest).length :=
    length_map _
  rw [encodeCtk3SegmentedDocumentsInto, hlength, map_cons]
  refine .checked (refuseIf_of_not (by simp)) (.checked (refuseIf_of_not (by omega)) ?_)
  refine .checked (refuseIf_of_not (Nat.not_lt.mpr hlimit)) (.checked
    (mapError_eq_ok.mpr hfirst.encodes) ?_)
  rw [if_neg (by omega), map_cons (f := Part.payload), intercalate_cons]
  exact (Writes.all _).bind ((writes_segmentPayload first).bind (writes_segments hb hrest hfits))

end

/-! ## The three writers and the decoder -/

theorem mapM_normalForm {parts : List Part} (hparts : ∀ part ∈ parts, PartOk b part) :
    (parts.map Part.document).mapM normalForm = .ok (parts.map Part.normal) := by
  rw [mapM_map]
  exact mapM_eq_ok_map fun part hpart => (hparts part hpart).normalises

/-- What all three writers and the decoder make of parts of one width. -/
structure Agreed (b : Build) (parts : List Part) (text : List Char) (width : Nat) : Prop where
  segmented : Writes (encodeCtk3SegmentedDocumentsInto b (parts.map Part.document)) () text
  bundled : Writes (encodeCtk3BundleInto b (parts.map Part.segment)) () text
  widths : ∀ part ∈ parts, part.document.width = width
  decodes : decodeCtk3Exact b (String.ofList text) =
    .ok ⟨width, parts.flatMap fun part => part.normal.pages⟩

theorem agreed_single {part : Part} (hpart : PartOk b part)
    (hpayloads : bundlePayloads b [part.segment] = .ok [part.payload]) (h : Fits [part] none 0) :
    Agreed b [part] (ctk3Prefix ++ part.payload) part.document.width where
  segmented := by
    have hlimit := h.2.1
    rw [Nat.zero_add] at hlimit
    have hsegment : part.segment.toList = ctk3Prefix ++ part.payload := String.toList_ofList
    rw [← hsegment]
    refine .checked (refuseIf_of_not (by simp)) (.checked (refuseIf_of_not ?_) ?_)
    · rw [map_singleton, length_singleton]
      decide
    · exact .checked (refuseIf_of_not (Nat.not_lt.mpr hlimit)) (.checked
        (mapError_eq_ok.mpr hpart.encodes) (.all _))
  bundled := .checked hpayloads ((Writes.all ctk3Prefix).bind (.all part.payload))
  widths := by simp
  decodes := by
    rw [← hpart.width_eq, flatMap_singleton, decodeCtk3Exact, String.toList_ofList,
      extractExactBundle_ctk64Text hpart.chars, ok_bind, decodeEither,
      extractExactPayload_ctk64Text hpart.chars hpart.valid, ok_bind]
    exact hpart.decodes

theorem agreed_many (hb : 32 ≤ b.pointerBits) {first second : Part} {rest : List Part}
    (hparts : ∀ part ∈ first :: second :: rest, PartOk b part)
    (hcount : (first :: second :: rest).length ≤ maxBundlePages)
    (hpayloads : bundlePayloads b ((first :: second :: rest).map Part.segment) =
      .ok ((first :: second :: rest).map Part.payload)) (h : Fits (first :: second :: rest) none 0) :
    Agreed b (first :: second :: rest)
      (ctk3BundlePrefix ++ ['.'].intercalate ((first :: second :: rest).map Part.payload))
      first.document.width where
  segmented := writes_segmentedDocuments hb hparts (by simp) hcount h
  bundled := writes_bundleInto hparts hpayloads (by simp)
  widths := forall_mem_cons.mpr ⟨rfl, h.2.2.width_eq⟩
  decodes := by
    rw [decodeCtk3Exact, String.toList_ofList, extractExactBundle_of_parts hparts (by simp),
      ok_bind, decodeEither, decodeBundlePayloads_of_fits hparts rfl hcount h]

/-- Where bundling compact segments succeeds, all three writers produce one text, and it decodes to
    the pages of all the documents in their normal form. -/
theorem segmented_eq_bundle (b : Build) (hb : 32 ≤ b.pointerBits) (documents : List Ctk3Document)
    (segments : List String) (text : String) (hne : documents ≠ [])
    (hsegments : documents.mapM encodeCtk3Compact = .ok segments)
    (hbundle : encodeCtk3Bundle b segments = .ok text) :
    (∀ out, encodeCtk3SegmentedDocumentsInto b documents out = .ok () (out ++ text.toList)) ∧
    (∀ out, encodeCtk3BundleInto b segments out = .ok () (out ++ text.toList)) ∧
    ∃ width normals, (∀ document ∈ documents, document.width = width) ∧
      documents.mapM normalForm = .ok normals ∧
      decodeCtk3Exact b text = .ok ⟨width, normals.flatMap Ctk3Document.pages⟩ := by
  obtain ⟨parts, hparts, rfl, rfl⟩ := exists_parts hb hsegments
  rw [encodeCtk3Bundle] at hbundle
  obtain ⟨payloads, hpayloads, htext⟩ := bind_eq_ok.mp hbundle
  have hchecked := hpayloads
  rw [bundlePayloads] at hchecked
  obtain ⟨_, hcount, hvalid⟩ := bind_eq_ok.mp hchecked
  rw [refuseIf_eq_ok, not_or, length_map] at hcount
  obtain ⟨rfl, hfits⟩ := fits_of_validateSegments hparts hvalid
  have hagreed : ∃ width, Agreed b parts text.toList width := by
    rcases parts with _ | ⟨first, _ | ⟨second, rest⟩⟩
    · exact absurd rfl hne
    · cases htext
      rw [String.toList_ofList]
      exact ⟨_, agreed_single (hparts first mem_cons_self) hpayloads hfits⟩
    · cases htext
      rw [String.toList_ofList]
      exact ⟨_, agreed_many hb hparts (Nat.le_of_not_lt hcount.2) hpayloads hfits⟩
  obtain ⟨width, hagreed⟩ := hagreed
  refine ⟨hagreed.segmented, hagreed.bundled, width, parts.map Part.normal, ?_,
    mapM_normalForm hparts, ?_⟩
  · intro document hdocument
    obtain ⟨part, hpart, rfl⟩ := mem_map.mp hdocument
    exact hagreed.widths part hpart
  · rw [flatMap_map, ← hagreed.decodes, String.ofList_toList]

/-- Two documents, the first of which is not in normal form. -/
def sampleDocuments : List Ctk3Document :=
  [⟨4, [quizPage]⟩, ⟨4, [⟨1, [.gray, .empty, .gray, .gray], "", none, .standard, none⟩]⟩]

theorem segmented_eq_bundle_samples :
    (∀ out, encodeCtk3SegmentedDocumentsInto .native sampleDocuments out =
      .ok () (out ++ "ctk3b_wxmCdQISDo5E9Wx1oVClDALZhw.wxkCEBjQPUo".toList)) ∧
    (∀ out, encodeCtk3BundleInto .native
      ["ctk3_wxmCdQISDo5E9Wx1oVClDALZhw", "ctk3_wxkCEBjQPUo"] out =
      .ok () (out ++ "ctk3b_wxmCdQISDo5E9Wx1oVClDALZhw.wxkCEBjQPUo".toList)) ∧
    ∃ width normals, (∀ document ∈ sampleDocuments, document.width = width) ∧
      sampleDocuments.mapM normalForm = .ok normals ∧
      decodeCtk3Exact .native "ctk3b_wxmCdQISDo5E9Wx1oVClDALZhw.wxkCEBjQPUo" =
        .ok ⟨width, normals.flatMap Ctk3Document.pages⟩ :=
  segmented_eq_bundle .native (by decide) _ _ _ (by decide) (by decide +kernel) (by decide +kernel)

end Clearra.Proof.Ctk3
