import Clearra.Ctk3.Decoder
import Clearra.Ctk3.Encoder

/-!
# CTK64 reads back

A payload, written six bits a character behind its prefix, is found again by the exact entry point:
there is nothing to trim, the prefix is not that of a bundle, and the digits regroup into the bytes.
-/

namespace Clearra.Proof.Ctk3

open Clearra.Ctk3 Lib List

/-! ## Digits -/

section

variable (bytes : List Byte)

/-- The digits of a payload, of six bits. -/
def ctk64Digits : List Nat := closeCtk64 (regroup 8 6 (bytes.map BitVec.toNat))

theorem byte_lt : ∀ d ∈ bytes.map BitVec.toNat, d < 2 ^ 8 := by
  intro d hd
  obtain ⟨byte, -, rfl⟩ := mem_map.mp hd
  exact byte.isLt

/-- The zero bits at the end make up the last digit. -/
theorem ctk64Digits_spec : ∃ pad, pad < 6 ∧ (∀ d ∈ ctk64Digits bytes, d < 2 ^ 6) ∧
    number 6 (ctk64Digits bytes) = number 8 (bytes.map BitVec.toNat) * 2 ^ pad ∧
    6 * (ctk64Digits bytes).length = 8 * bytes.length + pad := by
  obtain ⟨h, hcount⟩ := holds_regroup (k := 6) (by decide) (byte_lt bytes)
  rw [ctk64Digits, closeCtk64]
  revert h hcount
  generalize regroup 8 6 (bytes.map BitVec.toNat) = s
  intro h hcount
  have hbits := h.bits_eq
  rw [length_map] at hbits
  split
  · rename_i hpos
    have hpow : 2 ^ s.count * 2 ^ (6 - s.count) = 2 ^ 6 := by
      rw [← Nat.pow_add, Nat.add_sub_cancel' hcount.le]
    refine ⟨6 - s.count, by omega, ?_, ?_, ?_⟩
    · rw [forall_mem_append]
      refine ⟨h.digit_lt, ?_⟩
      rw [forall_mem_singleton, ← hpow]
      exact Nat.mul_lt_mul_of_pos_right h.value_lt (Nat.two_pow_pos _)
    · rw [number_append_singleton, ← h.number_eq, Nat.add_mul, Nat.mul_assoc, hpow]
    · rw [length_append, length_singleton]
      omega
  · rename_i hzero
    have hzero : s.count = 0 := by omega
    have hvalue := h.value_lt
    rw [hzero, Nat.pow_zero] at hvalue
    refine ⟨0, by decide, h.digit_lt, ?_, by omega⟩
    rw [← h.number_eq, hzero, Nat.pow_zero, Nat.mul_one, Nat.mul_one]
    omega

theorem regroup_ctk64Digits : ∃ pad,
    regroup 6 8 (ctk64Digits bytes) = ⟨bytes.map BitVec.toNat, 0, pad⟩ := by
  obtain ⟨pad, hpad, hdigits, hnumber, hlength⟩ := ctk64Digits_spec bytes
  refine ⟨pad, regroup_regroup (by decide) (byte_lt bytes) hdigits hnumber ?_ (by omega)⟩
  rw [length_map]
  exact hlength

/-! ## Characters -/

theorem length_ctk64Alphabet : ctk64Alphabet.length = 64 := rfl

theorem nodup_ctk64Alphabet : ctk64Alphabet.Nodup := by decide

theorem ctk64Char_mem {digit : Nat} (h : digit < 64) : ctk64Char digit ∈ ctk64Alphabet := by
  rw [ctk64Char, getD_eq_getElem _ _ (by rwa [length_ctk64Alphabet])]
  exact getElem_mem _

theorem digitOf_ctk64Char {digit : Nat} (h : digit < 64) (reason : String) :
    digitOf ctk64Alphabet reason (ctk64Char digit) = .ok digit := by
  rw [digitOf, if_pos (ctk64Char_mem h), ctk64Char,
    getD_eq_getElem _ _ (by rwa [length_ctk64Alphabet])]
  exact congrArg Except.ok (nodup_ctk64Alphabet.idxOf_getElem digit _)

theorem mem_encodeCtk64 {c : Char} (h : c ∈ encodeCtk64 bytes) : c ∈ ctk64Alphabet := by
  obtain ⟨digit, hdigit, rfl⟩ := mem_map.mp h
  obtain ⟨pad, -, hdigits, -⟩ := ctk64Digits_spec bytes
  exact ctk64Char_mem (hdigits digit hdigit)

theorem length_encodeCtk64 :
    ∃ pad, pad < 6 ∧ 6 * (encodeCtk64 bytes).length = 8 * bytes.length + pad := by
  obtain ⟨pad, hpad, -, -, hlength⟩ := ctk64Digits_spec bytes
  refine ⟨pad, hpad, ?_⟩
  rw [encodeCtk64, length_map]
  exact hlength

theorem validate_encodeCtk64 (hpos : 0 < bytes.length) (hmax : bytes.length ≤ maxPayloadBytes) :
    validateExactAlphabet (encodeCtk64 bytes) .ctk64 = .ok () := by
  obtain ⟨pad, hpad, hlength⟩ := length_encodeCtk64 bytes
  refine refuseIf_of_not ?_
  rw [not_or, not_or, not_or]
  refine ⟨?_, ?_, ?_, ?_⟩
  · rw [← length_eq_zero_iff]
    omega
  · simp only [Transport.maximum, maxCtk64Characters]
    omega
  · simp only [Transport.modulus]
    omega
  · rw [Bool.not_eq_true, any_eq_false]
    intro c hc
    simpa [Transport.alphabet] using mem_encodeCtk64 bytes hc

theorem decodeCtk64_encodeCtk64 (hpos : 0 < bytes.length) (hmax : bytes.length ≤ maxPayloadBytes) :
    decodeCtk64 (encodeCtk64 bytes) = .ok bytes := by
  obtain ⟨pad, hregroup⟩ := regroup_ctk64Digits bytes
  obtain ⟨-, -, hdigits, -⟩ := ctk64Digits_spec bytes
  have hmap : (encodeCtk64 bytes).mapM (digitOf ctk64Alphabet "CTK64 character is invalid") =
      .ok (ctk64Digits bytes) := by
    have h := mapM_eq_ok_map (f := fun digit =>
      digitOf ctk64Alphabet "CTK64 character is invalid" (ctk64Char digit))
      (l := ctk64Digits bytes) (g := id) fun digit hdigit => digitOf_ctk64Char (hdigits digit hdigit) _
    rw [map_id] at h
    rw [encodeCtk64, mapM_map]
    exact h
  have hbytes : (bytes.map BitVec.toNat).map (BitVec.ofNat 8) = bytes := by
    rw [map_map]
    refine (map_congr_left fun byte _ => ?_).trans (map_id _)
    exact (BitVec.ofNat_toNat 8 byte).trans (BitVec.setWidth_eq byte)
  rw [decodeCtk64, validate_encodeCtk64 bytes hpos hmax, ok_bind, hmap, ok_bind, hregroup]
  simp only
  rw [rejectIf, refuseIf_of_not (by simp), ok_bind, hbytes, rejectIf,
    refuseIf_of_not (by simp), ok_bind]
  rfl

end

section

variable {bytes : List Byte} {text : List Char}

/-- Only the text of the bytes decodes to them, if it is one that a payload may have. -/
theorem decodeCtk64_eq_ok : decodeCtk64 text = .ok bytes ↔
    text ≠ [] ∧ text.length ≤ maxCtk64Characters ∧ text = encodeCtk64 bytes := by
  constructor
  · intro h
    obtain ⟨_, hvalid, h⟩ := bind_eq_ok.mp h
    obtain ⟨_, -, h⟩ := bind_eq_ok.mp h
    obtain ⟨_, -, h⟩ := bind_eq_ok.mp h
    obtain ⟨_, hcanonical, h⟩ := bind_eq_ok.mp h
    have hvalid := refuseIf_eq_ok.mp hvalid
    rw [not_or, not_or, not_lt] at hvalid
    cases h
    exact ⟨hvalid.1, hvalid.2.1, (not_not.mp (refuseIf_eq_ok.mp hcanonical)).symm⟩
  · rintro ⟨hne, hle, rfl⟩
    obtain ⟨pad, hpad, hlength⟩ := length_encodeCtk64 bytes
    have hpos := length_pos_of_ne_nil hne
    rw [maxCtk64Characters] at hle
    exact decodeCtk64_encodeCtk64 bytes (by omega) (by omega)

/-- CTK64 is canonical: a payload reads back if it is neither empty nor too long, what is accepted
    is the text of what it reads as, and so no two texts read as the same bytes. -/
theorem ctk64_canonical (bytes : List Byte) (text other : List Char) :
    (decodeCtk64 (encodeCtk64 bytes) = .ok bytes ↔ bytes ≠ [] ∧ bytes.length ≤ maxPayloadBytes) ∧
    (decodeCtk64 text = .ok bytes ↔
      text ≠ [] ∧ text.length ≤ maxCtk64Characters ∧ text = encodeCtk64 bytes) ∧
    (decodeCtk64 text = .ok bytes → decodeCtk64 other = .ok bytes → text = other) := by
  refine ⟨?_, decodeCtk64_eq_ok, fun h hother => ?_⟩
  · obtain ⟨pad, hpad, hlength⟩ := length_encodeCtk64 bytes
    rw [decodeCtk64_eq_ok, eq_self, and_true, ne_eq, ne_eq, ← length_eq_zero_iff, ← length_eq_zero_iff,
      maxCtk64Characters, maxPayloadBytes]
    omega
  · rw [(decodeCtk64_eq_ok.mp h).2.2, (decodeCtk64_eq_ok.mp hother).2.2]

theorem ctk64_canonical_byte :
    decodeCtk64 ['w', 'w'] = .ok [0xc3#8] ∧ decodeCtk64 ['w', 'x'] ≠ .ok [0xc3#8] :=
  have h : decodeCtk64 ['w', 'w'] = .ok [0xc3#8] := by decide
  ⟨h, fun hother => absurd ((ctk64_canonical _ _ _).2.2 h hother) (by decide)⟩

theorem decodeCtk64_encodeCtk64_nil :
    decodeCtk64 (encodeCtk64 []) = reject "transport payload is invalid" := rfl

end

/-! ## The checksum -/

theorem crcBytes_join (crc : BitVec 16) : (crc >>> 8).setWidth 8 ++ crc.setWidth 8 = crc := by
  refine BitVec.eq_of_getLsbD_eq fun i hi => ?_
  rw [BitVec.getLsbD_append]
  by_cases hlow : i < 8
  · simp [hlow]
  · have hback : 8 + (i - 8) = i := by omega
    have hhigh : i - 8 < 8 := by omega
    simp [hlow, hhigh, hback]

theorem splitChecksum_append (body : List Byte) (crc : BitVec 16) :
    splitChecksum (body ++ crcBytes crc) = .ok (body, crc) := by
  have hlength : (body ++ crcBytes crc).length - 2 = body.length := by
    rw [length_append]
    rfl
  rw [splitChecksum, hlength, drop_left, take_left]
  simp only [crcBytes, crcBytes_join]

/-! ## Finding the payload -/

/-- No white space, no letter case to ignore: the text starts with the prefix itself. -/
theorem trim_eq_self {source : List Char} (h : ∀ c ∈ source, isWhitespace c = false) :
    trim source = source := by
  have hdrop : source.dropWhile isWhitespace = source := by
    cases source with
    | nil => rfl
    | cons c source => rw [dropWhile_cons, h c mem_cons_self, if_neg Bool.false_ne_true]
  rw [trim, trimWith, hdrop, rdropWhile_eq_self_iff]
  intro hne
  rw [h _ (getLast_mem hne)]
  exact Bool.false_ne_true

theorem not_whitespace_of_mem : ∀ c ∈ ctk64Alphabet, isWhitespace c = false := by
  simp [ctk64Alphabet, isWhitespace]

theorem trim_ctk64Text {payload : List Char} (h : ∀ c ∈ payload, c ∈ ctk64Alphabet) :
    trim (ctk3Prefix ++ payload) = ctk3Prefix ++ payload := by
  refine trim_eq_self ?_
  rw [forall_mem_append]
  exact ⟨by simp [ctk3Prefix, isWhitespace], fun c hc => not_whitespace_of_mem c (h c hc)⟩

theorem extractExactBundle_ctk64Text {payload : List Char} (h : ∀ c ∈ payload, c ∈ ctk64Alphabet) :
    extractExactBundle (ctk3Prefix ++ payload) = .ok none := by
  have hno : startsWithIgnoreAsciiCase (ctk3Prefix ++ payload) ctk3BundlePrefix = false := by
    cases payload with
    | nil => decide
    | cons c payload => simp [startsWithIgnoreAsciiCase, ctk3Prefix, ctk3BundlePrefix]
  rw [extractExactBundle, trim_ctk64Text h, hno, if_neg Bool.false_ne_true]

theorem startsWith_ctk3Prefix (payload : List Char) :
    startsWithIgnoreAsciiCase (ctk3Prefix ++ payload) ctk3Prefix = true := by
  rw [startsWithIgnoreAsciiCase, take_left]
  decide

theorem extractExactPayload_ctk64Text {payload : List Char} (h : ∀ c ∈ payload, c ∈ ctk64Alphabet)
    (hvalid : validateExactAlphabet payload .ctk64 = .ok ()) :
    extractExactPayload (ctk3Prefix ++ payload) = .ok (.ctk64, payload) := by
  rw [extractExactPayload, trim_ctk64Text h]
  simp only
  rw [if_pos (startsWith_ctk3Prefix _), drop_left, hvalid]
  rfl

theorem decodeCtk3Exact_ctk64Text (b : Build) {payload : List Byte} (hpos : 0 < payload.length)
    (hmax : payload.length ≤ maxPayloadBytes) :
    decodeCtk3Exact b (ctk64Text payload) =
      decodeSinglePayload b .ctk64 (encodeCtk64 payload) := by
  have hchars : ∀ c ∈ encodeCtk64 payload, c ∈ ctk64Alphabet := fun c => mem_encodeCtk64 payload
  rw [decodeCtk3Exact, ctk64Text, String.toList_ofList, extractExactBundle_ctk64Text hchars,
    extractExactPayload_ctk64Text hchars (validate_encodeCtk64 payload hpos hmax)]
  rfl

end Clearra.Proof.Ctk3
