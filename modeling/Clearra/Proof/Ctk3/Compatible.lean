import Clearra.Ctk3.Encoder
import Clearra.Proof.Ctk3.Decoding

/-!
# The compatible entry points

They look for a prefix anywhere in the text. On a text the exact entry point takes for one segment
they find the same payload, for it is everything behind the first prefix; but before that they look
for the prefix of a bundle, and the alphabet of CTK64 has all of its characters. A payload that
happens to spell it is taken for a bundle with one segment, and refused.
-/

namespace Clearra.Proof.Ctk3

open Clearra.Ctk3 Lib List

/-! ## Searching -/

/-- Somewhere in the text, the prefix of a bundle is spelled in some letter case. -/
def SpellsBundlePrefix (source : List Char) : Prop :=
  ∃ i, startsWithIgnoreAsciiCase (source.drop i) ctk3BundlePrefix = true

theorem startsWith_iff {source header : List Char} :
    startsWithIgnoreAsciiCase source header = true ↔
      (source.take header.length).map Char.toLower = header := beq_iff_eq

variable {needle source : List Char}

theorem find_eq_none_iff (hneedle : needle ≠ []) :
    findIgnoreAsciiCase needle source = none ↔
      ∀ i, startsWithIgnoreAsciiCase (source.drop i) needle = false := by
  induction source with
  | nil =>
    refine ⟨fun _ i => ?_, fun _ => rfl⟩
    rw [drop_nil, startsWithIgnoreAsciiCase, take_nil, map_nil]
    exact beq_false_of_ne hneedle.symm
  | cons c source ih =>
    rw [findIgnoreAsciiCase]
    by_cases hhere : startsWithIgnoreAsciiCase (c :: source) needle = true
    · rw [if_pos hhere]
      exact ⟨by simp, fun h => absurd (h 0) (by rw [drop_zero, hhere]; simp)⟩
    · rw [if_neg hhere, Option.map_eq_none_iff, ih]
      constructor
      · intro h i
        cases i with
        | zero => exact Bool.not_eq_true _ ▸ hhere
        | succ i => exact h i
      · exact fun h i => h (i + 1)

theorem find_eq_zero (hne : source ≠ []) (h : startsWithIgnoreAsciiCase source needle = true) :
    findIgnoreAsciiCase needle source = some 0 := by
  cases source with
  | nil => exact absurd rfl hne
  | cons c source => rw [findIgnoreAsciiCase, if_pos h]

theorem startsWith_of_find {position : Nat} (h : findIgnoreAsciiCase needle source = some position) :
    startsWithIgnoreAsciiCase (source.drop position) needle = true := by
  induction source generalizing position with
  | nil => exact absurd h (by simp [findIgnoreAsciiCase])
  | cons c source ih =>
    rw [findIgnoreAsciiCase] at h
    split at h
    · rename_i hhere
      cases h
      exact hhere
    · obtain ⟨rest, hrest, rfl⟩ := Option.map_eq_some_iff.mp h
      exact ih hrest

/-! ## What an exact text looks like -/

/-- A prefix in some letter case, and then nothing but the payload. -/
structure ExactText (source : List Char) (transport : Transport) (payload : List Char) : Prop where
  starts : startsWithIgnoreAsciiCase source transport.header = true
  payload_eq : payload = source.drop transport.header.length
  valid : validateExactAlphabet payload transport = .ok ()

variable {input : List Char} {transport : Transport} {payload : List Char}

theorem extractExactPayload_eq_ok (h : extractExactPayload input = .ok (transport, payload)) :
    ExactText (trim input) transport payload := by
  rw [extractExactPayload] at h
  dsimp only at h
  split at h
  · rename_i hstarts
    obtain ⟨_, hvalid, h⟩ := bind_eq_ok.mp h
    obtain ⟨rfl, rfl⟩ := Prod.mk.inj (Except.ok.inj h)
    exact ⟨hstarts, rfl, hvalid⟩
  · split at h
    · rename_i hstarts
      obtain ⟨_, hvalid, h⟩ := bind_eq_ok.mp h
      obtain ⟨rfl, rfl⟩ := Prod.mk.inj (Except.ok.inj h)
      exact ⟨hstarts, rfl, hvalid⟩
    · exact absurd h (by simp [reject])

section

variable {source payload : List Char} {transport : Transport} (h : ExactText source transport payload)
include h

theorem ExactText.payload_ne_nil : payload ≠ [] := by
  have hvalid := h.valid
  rw [validateExactAlphabet, rejectIf, refuseIf_eq_ok, not_or] at hvalid
  exact hvalid.1

theorem ExactText.mem_alphabet : ∀ c ∈ payload, transport.alphabet.contains c = true := by
  have hvalid := h.valid
  rw [validateExactAlphabet, rejectIf, refuseIf_eq_ok, not_or, not_or, not_or] at hvalid
  intro c hc
  by_contra hnot
  exact hvalid.2.2.2 (any_eq_true.mpr ⟨c, hc, by simpa using hnot⟩)

theorem ExactText.ne_nil : source ≠ [] := by
  rintro rfl
  exact h.payload_ne_nil (h.payload_eq.trans drop_nil)

/-- A character of the text is one of the prefix, but for its case, or one of the payload. -/
theorem ExactText.mem {c : Char} (hc : c ∈ source) :
    c.toLower ∈ transport.header ∨ transport.alphabet.contains c = true := by
  rw [← take_append_drop transport.header.length source, mem_append] at hc
  rcases hc with hc | hc
  · refine .inl ?_
    rw [← startsWith_iff.mp h.starts]
    exact mem_map_of_mem hc
  · exact .inr (h.mem_alphabet c (h.payload_eq ▸ hc))

/-- The prefix the text starts with is the first one in it. -/
theorem ExactText.locate : locatePayload source = some (transport, transport.header.length) := by
  have hstart := find_eq_zero h.ne_nil h.starts
  cases transport with
  | ctk64 =>
    rw [locatePayload, show findIgnoreAsciiCase ctk3Prefix source = some 0 from hstart]
    cases hright : findIgnoreAsciiCase ctk3LegacyPrefix source with
    | none => rfl
    | some right =>
      have hpos : 0 < right := by
        refine Nat.pos_of_ne_zero ?_
        rintro rfl
        -- the same five characters cannot be both prefixes
        have hleft := startsWith_iff.mp h.starts
        have hboth := startsWith_iff.mp (startsWith_of_find hright)
        exact absurd (hleft.symm.trans hboth) (by decide)
      simp only [if_pos hpos]
      rfl
  | ctk85 =>
    rw [locatePayload, show findIgnoreAsciiCase ctk3LegacyPrefix source = some 0 from hstart]
    cases findIgnoreAsciiCase ctk3Prefix source with
    | none => rfl
    | some left => rfl

/-- The compatible search finds the same payload. -/
theorem ExactText.takeWhile :
    (source.drop transport.header.length).takeWhile (transport.alphabet.contains ·) = payload := by
  rw [← h.payload_eq, takeWhile_eq_self_iff]
  exact h.mem_alphabet

/-- A dot would have to be in the payload, and with CTK64 it is not. -/
theorem ExactText.refuses_bundle {position : Nat}
    (hposition : findIgnoreAsciiCase ctk3BundlePrefix source = some position) :
    bundleSegments ((source.drop (position + ctk3BundlePrefix.length)).takeWhile
      fun c => c == '.' || ctk64Alphabet.contains c) =
        .error (.error (.invalidPayload "bundle payload is invalid")) := by
  have hfound := startsWith_iff.mp (startsWith_of_find hposition)
  cases transport with
  | ctk64 =>
    have hdot : ∀ c ∈ source, c ≠ '.' := by
      rintro c hc rfl
      exact absurd (h.mem hc) (by decide)
    have hsplit : ((source.drop (position + ctk3BundlePrefix.length)).takeWhile
        fun c => c == '.' || ctk64Alphabet.contains c).splitOn '.' =
          [(source.drop (position + ctk3BundlePrefix.length)).takeWhile
            fun c => c == '.' || ctk64Alphabet.contains c] := by
      refine splitOnP_eq_singleton fun c hc => ?_
      have hmem := mem_of_mem_drop ((takeWhile_sublist _).mem hc)
      simpa using hdot c hmem
    rw [bundleSegments, hsplit]
    rfl
  | ctk85 =>
    -- the underscore of the bundle's prefix is no character of such a text
    have hunderscore : '_' ∈ ((source.drop position).take ctk3BundlePrefix.length).map Char.toLower := by
      rw [hfound]
      decide
    obtain ⟨c, hc, hlower⟩ := mem_map.mp hunderscore
    have hlegacy : ∀ c ∈ ctk85Alphabet, c.toLower ≠ '_' := by simp [ctk85Alphabet]
    rcases h.mem (mem_of_mem_drop (mem_of_mem_take hc)) with hmem | hmem
    · rw [hlower] at hmem
      exact absurd hmem (by decide)
    · exact absurd hlower (hlegacy c (contains_iff_mem.mp hmem))

end

theorem extractCompatiblePayload_of_exact (h : ExactText (trim input) transport payload) :
    extractCompatiblePayload input = .ok (transport, payload) := by
  rw [extractCompatiblePayload]
  dsimp only
  rw [h.locate, orReject, ok_bind]
  dsimp only
  rw [h.takeWhile, rejectIf, refuseIf_of_not h.payload_ne_nil]
  rfl

/-- A bundle is looked for first, and found where its prefix is spelled. -/
theorem extractCompatibleBundle_of_exact (h : ExactText (trim input) transport payload) :
    (¬SpellsBundlePrefix (trim input) → extractCompatibleBundle input = .ok none) ∧
    (SpellsBundlePrefix (trim input) → extractCompatibleBundle input =
      .error (.error (.invalidPayload "bundle payload is invalid"))) := by
  have hspells : findIgnoreAsciiCase ctk3BundlePrefix (trim input) = none ↔
      ¬SpellsBundlePrefix (trim input) := by
    rw [find_eq_none_iff (by decide), SpellsBundlePrefix, not_exists]
    exact forall_congr' fun i => iff_of_eq (Bool.not_eq_true _).symm
  rw [extractCompatibleBundle]
  cases hfound : findIgnoreAsciiCase ctk3BundlePrefix (trim input) with
  | none => exact ⟨fun _ => rfl, fun hnot => absurd hnot (hspells.mp hfound)⟩
  | some position =>
    refine ⟨fun hnot => absurd (hspells.mpr hnot) (by simp [hfound]), fun _ => ?_⟩
    dsimp only
    rw [h.refuses_bundle hfound]
    rfl

/-! ## The three entry points -/

/-- On a text that is one segment, the compatible and the segment entry points agree with the exact
    one unless the payload spells the prefix of a bundle. -/
theorem compatible_agrees (b : Build) (source : String) (document : Ctk3Document)
    (h : DecodesSingle b source document) :
    (decodeCtk3 b source = .ok document ∧ decodeCtk3Segment b source = .ok document) ↔
      ¬SpellsBundlePrefix (trim source.toList) := by
  have hdecodes := h.decodes
  rw [decodeCtk3Exact, h.not_bundle, ok_bind, decodeEither] at hdecodes
  obtain ⟨⟨transport, payload⟩, hexact, hdocument⟩ := bind_eq_ok.mp hdecodes
  have htext := extractExactPayload_eq_ok hexact
  obtain ⟨hnone, hrefuses⟩ := extractCompatibleBundle_of_exact htext
  constructor
  · rintro ⟨hcompatible, -⟩ hspells
    rw [decodeCtk3, hrefuses hspells] at hcompatible
    exact absurd hcompatible (by simp [bind, Except.bind])
  · intro hspells
    refine ⟨?_, ?_⟩
    · rw [decodeCtk3, hnone hspells, ok_bind, decodeEither,
        extractCompatiblePayload_of_exact htext, ok_bind]
      exact hdocument
    · rw [decodeCtk3Segment, containsBundle, h.not_bundle, ok_bind, Option.isSome_none,
        if_neg Bool.false_ne_true, hnone hspells, ok_bind, hexact]
      exact hdocument

/-- A gray field whose bits spell the prefix of a bundle. -/
def spellingDocument : Ctk3Document :=
  ⟨10, [⟨6, [0, 1, 1, 1, 0, 1, 0, 0, 1, 1,
      1, 0, 1, 0, 0, 1, 1, 0, 1, 1,
      1, 1, 1, 0, 1, 1, 0, 0, 1, 1,
      1, 1, 0, 1, 1, 0, 0, 1, 1, 1,
      1, 1, 1, 1, 1, 1, 0, 0, 0, 1,
      1, 1, 0, 0, 0, 1, 1, 1, 0, 1].map
      fun bit => if bit = 1 then .gray else .empty, "", none, .standard, none⟩]⟩

theorem decodesSingle_spelling :
    DecodesSingle .native "ctk3_w0kCYBjgctk3b_7juFlr" spellingDocument :=
  ⟨by decide +kernel, by decide +kernel⟩

theorem compatible_agrees_spelling :
    DecodesSingle .native "ctk3_w0kCYBjgctk3b_7juFlr" spellingDocument ∧
    ((decodeCtk3 .native "ctk3_w0kCYBjgctk3b_7juFlr" = .ok spellingDocument ∧
      decodeCtk3Segment .native "ctk3_w0kCYBjgctk3b_7juFlr" = .ok spellingDocument) ↔
      ¬SpellsBundlePrefix (trim "ctk3_w0kCYBjgctk3b_7juFlr".toList)) :=
  ⟨decodesSingle_spelling, compatible_agrees _ _ _ decodesSingle_spelling⟩

/-- The encoder writes a text that neither of the other two entry points decodes. -/
theorem spelling_refused :
    encodeCtk3 spellingDocument = .ok "ctk3_w0kCYBjgctk3b_7juFlr" ∧
    DecodesSingle .native "ctk3_w0kCYBjgctk3b_7juFlr" spellingDocument ∧
    decodeCtk3 .native "ctk3_w0kCYBjgctk3b_7juFlr" =
      .error (.error (.invalidPayload "bundle payload is invalid")) ∧
    decodeCtk3Segment .native "ctk3_w0kCYBjgctk3b_7juFlr" =
      .error (.error (.invalidPayload "bundle payload is invalid")) :=
  ⟨by decide +kernel, decodesSingle_spelling, by decide +kernel, by decide +kernel⟩

end Clearra.Proof.Ctk3
