import Clearra.Proof.Ctk3.Decoding
import Clearra.Proof.Ctk3.Normal
import Clearra.Proof.Ctk3.Temporal
import Clearra.Proof.Ctk3.Transport

/-!
# The codec is lossless on normal forms

Whichever revision wins, the text decodes to the normal form of the document that was encoded, on
every build whose pointers have at least 32 bits. The stream of a revision is read back field by
field; what is left after the last page is the padding of the last byte.
-/

namespace Clearra.Proof.Ctk3

open Clearra.Ctk3 Lib List

/-! ## The shared field -/

structure SharedOk (width : Nat) (shared : SharedFieldPredictor) : Prop where
  height_pos : 0 < shared.height
  height_le : shared.height ≤ maxHeight
  codes_length : shared.codes.length = shared.height * width
  codes_valid : ValidCodes shared.codes

theorem validCodes_step {codes other : List Nat} (h : ValidCodes codes) :
    ValidCodes (codes.zipIdx.map fun (code, index) =>
      if code ≠ 0 ∧ code ≠ other.getD index 0 then 0 else code) := by
  intro code hcode
  obtain ⟨⟨old, index⟩, hmem, rfl⟩ := mem_map.mp hcode
  simp only
  split
  · decide
  · exact h old (fst_mem_of_mem_zipIdx hmem)

theorem commonCodes_spec (pages : List NormalizedPage) {codes : List Nat} (h : ValidCodes codes) :
    (commonCodes pages codes).length = codes.length ∧ ValidCodes (commonCodes pages codes) := by
  induction pages generalizing codes with
  | nil => exact ⟨rfl, h⟩
  | cons page pages ih =>
    rw [commonCodes, foldl_cons, ← commonCodes]
    obtain ⟨hlength, hvalid⟩ := ih (@validCodes_step _ page.codes h)
    refine ⟨?_, hvalid⟩
    rw [hlength, length_map, length_zipIdx]

theorem sharedOk_of_buildSharedField {width : Nat} {pages : List NormalizedPage}
    {shared : SharedFieldPredictor} (hwidth : 0 < width)
    (hencodable : ∀ page ∈ pages, Encodable width page)
    (h : buildSharedField pages width = some shared) : SharedOk width shared := by
  unfold buildSharedField at h
  split at h
  · rename_i first second rest
    have hfirst := hencodable first mem_cons_self
    obtain ⟨hlength, hvalid⟩ := commonCodes_spec (second :: rest) hfirst.codes_valid
    have hrows : ((commonCodes (second :: rest) first.codes).length + width - 1) / width =
        first.height := by
      rw [hlength, hfirst.codes_length, Nat.add_sub_assoc hwidth, Nat.add_comm,
        Nat.add_mul_div_right _ _ hwidth, Nat.div_eq_of_lt (by omega), Nat.zero_add]
    dsimp only at h
    rw [hrows] at h
    split at h
    · simp at h
    · simp only [Option.ite_none_left_eq_some, Option.some.injEq] at h
      obtain ⟨hpos, rfl⟩ := h
      have hle := trimHeight_le width (commonCodes (second :: rest) first.codes) first.height
      refine ⟨Nat.pos_of_ne_zero hpos, hle.trans hfirst.height_le, ?_,
        fun code hcode => hvalid code (mem_of_mem_take hcode)⟩
      rw [length_take, hlength, hfirst.codes_length]
      exact Nat.min_eq_left (Nat.mul_le_mul_right width hle)
  · simp at h

/-! ## The stream -/

theorem encodes_unless {α : Type} {p : Prop} [Decidable p] {f : Write} {q r : Read α} {a : α}
    (h : ¬p) (hq : Encodes f q a) : Encodes f (if p then r else q) a := by
  rw [if_neg h]
  exact hq

section

variable {b : Build} (hb : 32 ≤ b.pointerBits) {width : Nat} {pages : List NormalizedPage}
  (hsegment : SegmentOk width pages) (hencodable : ∀ page ∈ pages, Encodable width page)
include hb hsegment

theorem encodes_sharedField {shared : SharedFieldPredictor} (h : SharedOk width shared) :
    Encodes (writeVarUint shared.height >=> writeBestCellEncoding shared.codes none 4 true)
      (readSharedField b width) shared.codes := by
  have hlt := field_lt hsegment.width_le h.height_le
  have hheight : ¬(shared.height = 0 ∨ shared.height > maxHeight) := by
    have := h.height_pos
    have := h.height_le
    omega
  refine (encodes_writeVarUint _).seq (encodes_failIf hheight ?_)
  rw [usizeChecked_of_lt hb hlt, pure_bind, Nat.mul_comm, ← h.codes_length]
  rw [Nat.mul_comm, ← h.codes_length] at hlt
  exact encodes_bestCellEncoding hb hlt h.codes_valid none (by decide) true

include hencodable

variable {revision : Nat} {shared : Option SharedFieldPredictor}
  (hshared : ∀ s, shared = some s → SharedOk width s)
include hshared

theorem encodes_pages :
    Encodes (writePages width pages revision shared) (readPages b revision width pages.length)
      pages := by
  have hcount : pages.length < 2 ^ 32 := lt_of_le_of_lt hsegment.pages_le (by decide)
  have htemporal := fun shared => encodes_temporalPages hb hcount hsegment.width_le hencodable shared
  unfold writePages
  split
  · rename_i hrevision
    rw [hrevision]
    exact encodes_compactPages hb hsegment.width_le hencodable []
  · split
    · rename_i hrevision
      rw [hrevision]
      exact htemporal none
    · split
      · rename_i hrevision
        rw [hrevision]
        cases shared with
        | none => exact fun w w' h => absurd h (by simp)
        | some shared =>
          have hpages := (encodes_sharedField hb hsegment (hshared shared rfl)).seq
            (q := fun codes => readTemporalPages b width pages.length (some codes))
            (htemporal (some shared))
          rw [fish_assoc] at hpages
          exact hpages
      · exact fun w w' h => absurd h (by simp)

/-- The header alone fills two bytes. -/
theorem document_size {w : BitWriter}
    (h : writeDocument width pages revision shared .empty = .ok w) : 2 ≤ w.bytes.length := by
  have hheader := (appends_writeBits magic 8).seq
    ((appends_writeBits revision 3).seq (appends_writeBits (width - 1) 5))
  have hrest := (encodes_writeVarUint pages.length).seq (q := fun count => readBit >>= fun _ =>
    readPages b revision width count) ((encodes_writeBit false).seq
    (q := fun _ => readPages b revision width pages.length)
    (encodes_pages hb hsegment hencodable hshared))
  have hsplit : writeDocument width pages revision shared =
      (writeBits magic 8 >=> writeBits revision 3 >=> writeBits (width - 1) 5) >=>
        (writeVarUint pages.length >=> writeBit false >=>
          writePages width pages revision shared) := by
    rw [writeDocument, fish_assoc, fish_assoc]
  rw [hsplit] at h
  obtain ⟨w1, hw1, hw⟩ := bind_eq_ok.mp h
  obtain ⟨bs, hbs, -⟩ := hrest w1 w hw
  have hlength := congrArg List.length hbs
  rw [hheader _ _ hw1, bits_empty, bits] at hlength
  simp only [length_append, length_map, length_range, length_nil] at hlength
  have hbytes := w.length_eq
  omega

section

variable (hrevision : revision ∈ [compactSchemaRevision, temporalSchemaRevision, sharedFieldSchemaRevision])
include hrevision

theorem encodes_document :
    Encodes (writeDocument width pages revision shared) (readBody b) (width, pages) := by
  have hwidth := hsegment.width_pos
  have hmax := hsegment.width_le
  have hpos := hsegment.pages_pos
  have hcount := hsegment.pages_le
  have hsmall : revision < 2 ^ 32 := by
    simp only [mem_cons, not_mem_nil, or_false] at hrevision
    rcases hrevision with rfl | rfl | rfl <;> decide
  refine (encodes_writeBits (by decide)).seq (encodes_failIf (by simp) ?_)
  refine (encodes_writeBits hsmall).seq (encodes_failIf ?_ ?_)
  · exact not_not.mpr (mem_cons_of_mem _ hrevision)
  refine (encodes_writeBits (lt_of_le_of_lt (Nat.sub_le _ _) (width_lt hmax))).seq ?_
  rw [Nat.sub_add_cancel hwidth]
  refine encodes_unless (by omega) ((encodes_writeVarUint _).seq (encodes_unless (by omega) ?_))
  refine (encodes_writeBit false).seq (encodes_failIf (by simp) ?_)
  exact (encodes_pages hb hsegment hencodable hshared).andThen (.pure _)

theorem readDocument_writeDocument {w : BitWriter}
    (h : writeDocument width pages revision shared .empty = .ok w) :
    ∃ r, readDocument b ⟨w.bytes, 0⟩ = .ok ((width, pages), r) := by
  obtain ⟨bs, hbs, hreads⟩ := encodes_document hb hsegment hencodable hshared hrevision _ _ h
  rw [bits_empty, nil_append] at hbs
  obtain ⟨k, hbody⟩ := remaining_body w
  rw [hbs] at hbody
  obtain ⟨r, hr, hpadding⟩ := hreads ⟨w.bytes, 0⟩ _ hbody
  obtain ⟨r', hr'⟩ := assertZeroPadding_ok hpadding
  refine ⟨r', ?_⟩
  change (readBody b ⟨w.bytes, 0⟩ >>= fun x => (assertZeroPadding >>= fun _ => pure x.1) x.2) = _
  rw [hr, ok_bind]
  change (assertZeroPadding r >>= fun x => .ok ((width, pages), x.2)) = _
  rw [hr', ok_bind]

/-- A payload fits, and decodes to the pages that were encoded. -/
theorem decodeSinglePayload_encodeNormalized {encoded : Nat × List Byte}
    (h : encodeNormalized width pages revision shared = .ok encoded) :
    0 < encoded.2.length ∧ encoded.2.length ≤ maxPayloadBytes ∧
      decodeSinglePayload b .ctk64 (encodeCtk64 encoded.2) = normalizedToDocument width pages := by
  rw [encodeNormalized] at h
  obtain ⟨w, hw, h⟩ := bind_eq_ok.mp h
  obtain ⟨_, hsize, h⟩ := bind_eq_ok.mp h
  cases h
  rw [refuseIf_eq_ok] at hsize
  have htwo := document_size hb hsegment hencodable hshared hw
  obtain ⟨r, hr⟩ := readDocument_writeDocument hb hsegment hencodable hshared hrevision hw
  have hlength : (w.bytes ++ crcBytes (crc16 w.bytes)).length = w.bytes.length + 2 :=
    length_append
  have hpos : 0 < (w.bytes ++ crcBytes (crc16 w.bytes)).length := by omega
  have hmax : (w.bytes ++ crcBytes (crc16 w.bytes)).length ≤ maxPayloadBytes := by omega
  refine ⟨hpos, hmax, ?_⟩
  rw [decodeSinglePayload, decodePayload, decodeCtk64_encodeCtk64 _ hpos hmax, ok_bind, rejectIf,
    refuseIf_of_not (by omega), ok_bind, splitChecksum_append, ok_bind]
  dsimp only
  rw [rejectIf, refuseIf_of_not (by simp), ok_bind, hr, ok_bind]

theorem decode_encodeNormalized {encoded : Nat × List Byte}
    (h : encodeNormalized width pages revision shared = .ok encoded) :
    decodeCtk3Exact b (ctk64Text encoded.2) = normalizedToDocument width pages := by
  obtain ⟨hpos, hmax, hdecode⟩ :=
    decodeSinglePayload_encodeNormalized hb hsegment hencodable hshared hrevision h
  rw [decodeCtk3Exact_ctk64Text b hpos hmax, hdecode]

end

end

/-! ## Documents -/

theorem selectCandidate_mem (first : Nat × List Byte) (candidates : List (Nat × List Byte)) :
    candidates.foldl selectCandidate first ∈ first :: candidates := by
  induction candidates generalizing first with
  | nil => exact mem_singleton_self first
  | cons candidate candidates ih =>
    rw [foldl_cons]
    rcases mem_cons.mp (ih (selectCandidate first candidate)) with h | h
    · rw [h, selectCandidate]
      split
      · exact mem_cons_of_mem _ mem_cons_self
      · exact mem_cons_self
    · exact mem_cons_of_mem _ (mem_cons_of_mem _ h)

section

variable {b : Build} (hb : 32 ≤ b.pointerBits) {document : Ctk3Document} {text : String}
include hb

theorem decode_encodeCtk3 (h : encodeCtk3 document = .ok text) :
    ∃ normal, normalForm document = .ok normal ∧ decodeCtk3Exact b text = .ok normal := by
  rw [encodeCtk3] at h
  obtain ⟨pages, hpages, h⟩ := bind_eq_ok.mp h
  obtain ⟨compact, hcompact, h⟩ := bind_eq_ok.mp h
  obtain ⟨temporal, htemporal, h⟩ := bind_eq_ok.mp h
  obtain ⟨shared, hshared, h⟩ := bind_eq_ok.mp h
  cases h
  obtain ⟨-, hsegment, hencodable⟩ := normalizeDocument_eq_ok hpages
  obtain ⟨normal, hnormal, hdocument⟩ := exists_normalForm hpages
  refine ⟨normal, hnormal, ?_⟩
  rw [← hdocument]
  -- whichever candidate is selected
  have hmem := selectCandidate_mem compact (temporal :: shared)
  generalize (temporal :: shared).foldl selectCandidate compact = selected at hmem ⊢
  rw [mem_cons, mem_cons] at hmem
  rcases hmem with rfl | rfl | hmem
  · exact decode_encodeNormalized hb hsegment hencodable (by simp) (by simp) hcompact
  · exact decode_encodeNormalized hb hsegment hencodable (by simp) (by simp) htemporal
  · rw [encodeShared] at hshared
    split at hshared
    · cases hshared
      simp at hmem
    · rename_i predictor hpredictor
      obtain ⟨encoded, hencoded, h⟩ := bind_eq_ok.mp hshared
      cases h
      obtain rfl := mem_singleton.mp hmem
      refine decode_encodeNormalized hb hsegment hencodable ?_ (by simp) hencoded
      rintro _ ⟨⟩
      exact sharedOk_of_buildSharedField hsegment.width_pos hencodable hpredictor

theorem decode_encodeCtk3Compact (h : encodeCtk3Compact document = .ok text) :
    ∃ normal, normalForm document = .ok normal ∧ decodeCtk3Exact b text = .ok normal := by
  rw [encodeCtk3Compact] at h
  obtain ⟨pages, hpages, h⟩ := bind_eq_ok.mp h
  obtain ⟨compact, hcompact, h⟩ := bind_eq_ok.mp h
  cases h
  obtain ⟨-, hsegment, hencodable⟩ := normalizeDocument_eq_ok hpages
  obtain ⟨normal, hnormal, hdocument⟩ := exists_normalForm hpages
  refine ⟨normal, hnormal, ?_⟩
  rw [← hdocument]
  exact decode_encodeNormalized hb hsegment hencodable (by simp) (by simp) hcompact

end

/-- The codec is lossless up to normal form, whichever encoding is the shortest. -/
theorem decodeCtk3Exact_encode (b : Build) (hb : 32 ≤ b.pointerBits) (document : Ctk3Document)
    (text : String) : (encodeCtk3 document = .ok text → ∃ normal, normalForm document = .ok normal ∧
      decodeCtk3Exact b text = .ok normal) ∧
    (encodeCtk3Compact document = .ok text → ∃ normal, normalForm document = .ok normal ∧
      decodeCtk3Exact b text = .ok normal) :=
  ⟨decode_encodeCtk3 hb, decode_encodeCtk3Compact hb⟩

/-- A page with an empty row on top, an empty garbage row, a turned S and a comment that asks for a
    quiz: nothing of it is in normal form. -/
def quizPage : Ctk3Page :=
  ⟨2, [.piece .T, .piece .T, .piece .T, .gray, .empty, .empty, .empty, .empty], "#Q=[](T)",
    some ⟨.S, .reverse, 2, 1⟩, .standard, some [.empty, .empty, .empty, .empty]⟩

theorem decodeCtk3Exact_encode_quizPages :
    (∃ normal, normalForm ⟨4, [quizPage, quizPage, quizPage]⟩ = .ok normal ∧
      decodeCtk3Exact .native "ctk3_wxoGVwEg4RyORPVsdaFQpXwQKLrw" = .ok normal) ∧
    (∃ normal, normalForm ⟨4, [quizPage, quizPage, quizPage]⟩ = .ok normal ∧
      decodeCtk3Exact .native "ctk3_wxmGdQISDo5E9Wx1oVClDAKt4UhUz1YXClXKINAajkT1bHWhUKUMAl33" =
        .ok normal) :=
  ⟨(decodeCtk3Exact_encode .native (by decide) _ _).1 (by decide +kernel),
    (decodeCtk3Exact_encode .native (by decide) _ _).2 (by decide +kernel)⟩

end Clearra.Proof.Ctk3
