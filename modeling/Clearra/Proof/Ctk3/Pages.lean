import Clearra.Ctk3.Encoder
import Clearra.Proof.Ctk3.PageSafety
import Clearra.Proof.Ctk3.Painting

/-!
# Pages read back

The parts of a page that both the compact and the temporal revisions write, and the pages of the
compact one. A page that can be written is in normal form: its height fits, its codes are colours, its
operation is the canonical one.
-/

namespace Clearra.Proof.Ctk3

open Clearra.Ctk3 Lib List

structure Encodable (width : Nat) (page : NormalizedPage) : Prop extends PageOk width page where
  codes_valid : ValidCodes page.codes
  garbage_valid : ∀ codes, page.garbageCodes = some codes → ValidCodes codes

/-! ## Pieces of a page -/

variable {α : Type}

theorem encodes_writeUnless {p : Prop} [Decidable p] {e : Ctk3CodecError} {f : Write} {q : Read α}
    {a : α} (h : ¬p → Encodes f q a) : Encodes (writeUnless p e >=> f) q a := by
  intro w w' hw
  change writeUnless p e w >>= f = _ at hw
  by_cases hp : p
  · rw [writeUnless, if_pos hp] at hw
    exact absurd hw (by simp [bind, Except.bind])
  · rw [writeUnless, if_neg hp] at hw
    exact h hp w w' hw

/-- What may be missing, behind a bit that says whether it is there. -/
theorem encodes_writeOptional {f : α → Write} {p : Read α} {o : Option α}
    (h : ∀ a, o = some a → Encodes (f a) p a) :
    Encodes (writeOptional f o) (readIf o.isSome p) o := by
  cases o with
  | none => exact .pure none
  | some a => exact (h a rfl).andThen (.pure _)

theorem fromWireIndex_wireIndex (piece : Ctk3Piece) :
    Ctk3Piece.fromWireIndex piece.wireIndex = some piece := by
  cases piece <;> rfl

theorem wireIndex_lt (piece : Ctk3Piece) : piece.wireIndex < 7 := by
  cases piece <;> decide

theorem length_operationRotations_le (piece : Ctk3Piece) :
    (operationRotations piece).length ≤ 4 := by
  cases piece <;> decide

theorem normalizeDecodedOperation_of_canonical {operation : Ctk3Operation}
    (h : CanonicalOperation operation) :
    normalizeDecodedOperation operation = pure operation := by
  rw [normalizeDecodedOperation, failIf_of_not (by simp [h.1]), pure_bind, h.2, orFail, pure_bind,
    failIf_of_not (by simp [h.1]), pure_bind]

theorem encodes_coordinate {value : Int} (h : value.natAbs ≤ maxOperationCoordinate) {f : Write}
    {q : Int → Read α} {a : α} (hq : Encodes f (q value) a) :
    Encodes (writeSignedVarInt value >=> f) (readCoordinate >>= q) a := by
  have hcoordinate : Encodes (writeSignedVarInt value) readCoordinate value := by
    refine (encodes_writeSignedVarInt value).andThen ?_
    rw [failIf_of_not (by omega), pure_bind]
    exact .pure value
  exact hcoordinate.seq hq

theorem encodes_operationBody {operation : Ctk3Operation} (h : CanonicalOperation operation) :
    Encodes (writeOperationBody operation) readOperationBody operation := by
  have hrange := of_decide_eq_true h.1
  have hindex := wireIndex_lt operation.piece
  have hcount := length_operationRotations_le operation.piece
  refine (encodes_writeBits (by omega)).seq ?_
  rw [fromWireIndex_wireIndex, orFail, pure_bind]
  refine encodes_writeUnless fun hrotation => ?_
  rw [not_not] at hrotation
  have hlt := idxOf_lt_length_of_mem hrotation
  refine (encodes_writeBits (by omega)).seq ?_
  rw [getElem?_eq_getElem hlt, getElem_idxOf, orFail, pure_bind,
    ← fish_pure (writeSignedVarInt operation.y)]
  refine encodes_coordinate hrange.1 (encodes_coordinate hrange.2 ?_)
  rw [normalizeDecodedOperation_of_canonical h]
  exact .pure operation

theorem commentOfBytes_commentBytes (comment : String) :
    commentOfBytes (commentBytes comment) = pure comment := by
  have hbytes : (commentBytes comment).map UInt8.ofBitVec = utf8 comment := by
    rw [commentBytes, map_map]
    exact map_id' _
  rw [commentOfBytes, hbytes, fromUtf8_utf8]

theorem encodes_commentLiteral {comment : String} (h : comment.utf8ByteSize ≤ maxCommentBytes) :
    Encodes (writeCommentLiteral comment) readCommentLiteral comment := by
  have hlength : (commentBytes comment).length = comment.utf8ByteSize := by
    rw [commentBytes, length_map, length_utf8]
  refine (encodes_writeVarUint _).seq (encodes_failIf (by omega) ?_)
  refine (encodes_writeBytes_checked _).andThen ?_
  rw [commentOfBytes_commentBytes]
  exact .pure comment

theorem bits_lt (flags : Ctk3PageFlags) : flags.bits < 2 ^ 5 := by
  obtain ⟨lock, mirror, colorize, rise, quiz⟩ := flags
  cases lock <;> cases mirror <;> cases colorize <;> cases rise <;> cases quiz <;> decide

theorem fromBits_bits (flags : Ctk3PageFlags) : Ctk3PageFlags.fromBits flags.bits = flags := by
  obtain ⟨lock, mirror, colorize, rise, quiz⟩ := flags
  cases lock <;> cases mirror <;> cases colorize <;> cases rise <;> cases quiz <;> decide

theorem encodes_flagBits (flags : Ctk3PageFlags) :
    Encodes (writeBits flags.bits 5) (do let bits ← readBits 5; pure (.fromBits bits)) flags := by
  refine (encodes_writeBits ((bits_lt flags).trans (by decide))).andThen ?_
  rw [fromBits_bits]
  exact .pure flags

/-! ## Compact pages -/

theorem encodes_compactFlags (flags : Ctk3PageFlags) (previous : Option NormalizedPage) :
    Encodes (writeCompactFlags flags (previous.map NormalizedPage.flags))
      (readCompactFlags previous) flags := by
  rw [writeCompactFlags]
  split
  · rename_i hstandard
    subst hstandard
    exact (encodes_writeBits (by decide)).andThen (.pure _)
  · split
    · rename_i hprevious
      refine (encodes_writeBits (by decide)).andThen ?_
      simp only
      rw [hprevious]
      exact .pure flags
    · exact (encodes_writeBits (by decide)).seq (encodes_flagBits flags)

theorem encodes_compactHeight (height : Nat) (previous : Option NormalizedPage) :
    Encodes (writeCompactHeight height (previous.map NormalizedPage.height))
      (readCompactHeight previous) height := by
  cases previous with
  | none => exact encodes_writeVarUint height
  | some previous =>
    rw [Option.map_some, writeCompactHeight]
    split
    · rename_i heq
      refine (encodes_writeBit true).andThen ?_
      rw [if_pos rfl, heq]
      exact .pure _
    · refine (encodes_writeBit false).seq ?_
      rw [if_neg Bool.false_ne_true]
      exact encodes_writeVarUint height

theorem encodes_optionalComment {comment : String} (h : comment.utf8ByteSize ≤ maxCommentBytes) :
    ∃ o : Option String, o.getD "" = comment ∧
      Encodes (if comment = "" then pure else writeCommentLiteral comment)
        (readIf (comment != "") readCommentLiteral) o := by
  by_cases hempty : comment = ""
  · refine ⟨none, hempty.symm, ?_⟩
    rw [if_pos hempty, bne_eq_false_iff_eq.mpr hempty]
    exact .pure none
  · refine ⟨some comment, rfl, ?_⟩
    rw [if_neg hempty, bne_iff_ne.mpr hempty]
    exact (encodes_commentLiteral h).andThen (.pure _)

section

variable {b : Build} (hb : 32 ≤ b.pointerBits) {width : Nat} (hwidth : width ≤ maxWidth)
include hb hwidth

variable {page : NormalizedPage}

theorem encodes_fieldSize (hpage : Encodable width page) {f : Write} {q : Nat → Read α} {a : α}
    (hq : Encodes f (q page.codes.length) a) :
    Encodes f (usizeChecked b (width * page.height) >>= q) a := by
  rw [usizeChecked_of_lt hb (field_lt hwidth hpage.height_le), pure_bind, Nat.mul_comm,
    ← hpage.codes_length]
  exact hq

omit hb in
theorem codes_lt (hpage : Encodable width page) : page.codes.length < 2 ^ 32 := by
  rw [hpage.codes_length, Nat.mul_comm]
  exact field_lt hwidth hpage.height_le

theorem encodes_garbage {garbage : List Nat} (hlength : garbage.length = width)
    (hvalid : ValidCodes garbage) (previous : Option (List Nat)) {modeWidth : Nat}
    (hmode : 3 ≤ modeWidth) :
    Encodes (writeBestCellEncoding garbage previous modeWidth true)
      (readCellEncoding b width previous modeWidth) garbage := by
  have hbest := encodes_bestCellEncoding hb (hlength.symm ▸ width_lt hwidth) hvalid previous hmode true
  rwa [hlength] at hbest

theorem encodes_compactPage (hpage : Encodable width page) (previous : Option NormalizedPage) :
    Encodes (writeCompactPage page previous) (readCompactPage b width previous) page := by
  obtain ⟨comment, hcomment, hencodes⟩ := encodes_optionalComment hpage.comment_size
  refine (encodes_compactFlags page.flags previous).seq ((encodes_writeBit _).seq
    ((encodes_writeBit _).seq ((encodes_writeBit _).seq
    ((encodes_compactHeight page.height previous).seq (encodes_failIf
    (Nat.not_lt.mpr hpage.height_le) (encodes_fieldSize hb hwidth hpage ?_))))))
  refine (encodes_bestCellEncoding hb (codes_lt hwidth hpage) hpage.codes_valid _ (by decide)
    true).seq ((encodes_writeOptional fun garbage hgarbage => encodes_garbage hb hwidth
    (hpage.garbage_length _ hgarbage) (hpage.garbage_valid _ hgarbage) none (by decide)).seq
    (hencodes.seq ((encodes_writeOptional fun operation hoperation => encodes_operationBody
    (hpage.operation_canonical _ hoperation)).andThen ?_)))
  rw [hcomment]
  exact .pure page

theorem encodes_compactPages {pages : List NormalizedPage}
    (hpages : ∀ page ∈ pages, Encodable width page) (front : List NormalizedPage) :
    Encodes (writeCompactPages front.getLast? pages)
      (readLinearLoop b width compactSchemaRevision pages.length front) (front ++ pages) := by
  induction pages generalizing front with
  | nil =>
    rw [append_nil]
    exact .pure front
  | cons page pages ih =>
    obtain ⟨hpage, hpages⟩ := forall_mem_cons.mp hpages
    have hrest := ih hpages (front ++ [page])
    rw [getLast?_concat, append_assoc, singleton_append] at hrest
    exact (encodes_compactPage hb hwidth hpage front.getLast?).seq hrest

end

end Clearra.Proof.Ctk3
