import Clearra.Proof.Ctk3.PageSafety

/-!
# Decoding a text is safe

The entry points around the reader: the transport, the checksum, the segments of a bundle. What comes
out of a segment is a document whose pages the encoder would accept.
-/

namespace Clearra.Proof.Ctk3

open Clearra.Ctk3 Lib

/-- What is the same in every build. -/
abbrev Sound {α : Type} (post : α → Prop) (x : Except Stop α) : Prop := Yields Ordinary post x

/-! ## Transport -/

section

variable {α : Type} {post : α → Prop}

theorem sound_invalid (reason : String) :
    Sound post (.error (.error (.invalidPayload reason))) := nofun

theorem sound_refuseIf (p : Prop) [Decidable p] {e : Ctk3CodecError} (he : e ≠ .integerOverflow) :
    Sound (fun _ => ¬p) (refuseIf p (Stop.error e)) :=
  .ite (fun _ => he) fun h => h

theorem sound_rejectIf (p : Prop) [Decidable p] (reason : String) :
    Sound (fun _ => ¬p) (rejectIf p reason) := sound_refuseIf p (by simp)

theorem sound_orReject (reason : String) (o : Option α) :
    Sound (fun a => o = some a) (orReject reason o) := by
  cases o with
  | none => exact sound_invalid reason
  | some a => exact rfl

end

theorem sound_validateExactAlphabet (payload : List Char) (transport : Transport) :
    Sound (fun _ => True) (validateExactAlphabet payload transport) :=
  (sound_rejectIf _ _).weaken fun _ _ => trivial

theorem sound_digitOf (alphabet : List Char) (reason : String) (c : Char) :
    Sound (fun _ => True) (digitOf alphabet reason c) :=
  .ite (fun _ => trivial) fun _ => sound_invalid reason

theorem sound_decodeCtk64 (encoded : List Char) : Sound (fun _ => True) (decodeCtk64 encoded) :=
  (sound_validateExactAlphabet _ _).bind fun _ _ => (Yields.mapM (sound_digitOf _ _) _).bind
    fun _ _ => (sound_rejectIf _ _).bind fun _ _ => (sound_rejectIf _ _).bind fun _ _ => trivial

theorem sound_decodeCtk85Value (encoded : List Char) :
    Sound (fun _ => True) (decodeCtk85Value encoded) :=
  (Yields.mapM (sound_digitOf _ _) _).bind fun _ _ => trivial

theorem sound_decodeCtk85Blocks (encoded : List Char) :
    Sound (fun _ => True) (decodeCtk85Blocks encoded) := by
  fun_induction decodeCtk85Blocks encoded with
  | case1 => exact trivial
  | case2 c1 c2 c3 c4 c5 rest ih =>
    exact (sound_decodeCtk85Value _).bind fun _ _ => (sound_rejectIf _ _).bind fun _ _ =>
      ih.bind fun _ _ => trivial
  | case3 c short _ =>
    exact (sound_decodeCtk85Value _).bind fun _ _ => (sound_rejectIf _ _).bind fun _ _ => trivial

theorem sound_decodePayload (transport : Transport) (encoded : List Char) :
    Sound (fun _ => True) (decodePayload transport encoded) := by
  cases transport with
  | ctk64 => exact sound_decodeCtk64 encoded
  | ctk85 =>
    exact (sound_validateExactAlphabet _ _).bind fun _ _ => sound_decodeCtk85Blocks encoded

theorem sound_splitChecksum {payload : List Byte} (h : ¬payload.length < 4) :
    Sound (fun _ => True) (splitChecksum payload) := by
  have hlength : (payload.drop (payload.length - 2)).length = 2 := by
    rw [List.length_drop]
    omega
  obtain ⟨high, low, hdrop⟩ := List.length_eq_two.mp hlength
  rw [splitChecksum, hdrop]
  exact trivial

/-! ## Segments and bundles -/

theorem sound_colorOf (reason : String) (code : Nat) :
    Yields (· ≠ .integerOverflow) (fun _ => True) (colorOf reason code) := by
  rw [colorOf]
  split
  · exact trivial
  · exact Ctk3CodecError.noConfusion

theorem sound_normalizedToPage (page : NormalizedPage) :
    Yields (· ≠ .integerOverflow) (fun _ => True) (normalizedToPage page) := by
  refine (Yields.mapM (sound_colorOf _) _).bind fun _ _ => ?_
  cases page.garbageCodes with
  | none => exact trivial
  | some codes =>
    have hgarbage : Yields (· ≠ .integerOverflow) (fun _ => True)
        ((some codes).mapM fun codes => codes.mapM (colorOf "garbage color is invalid")) :=
      (Yields.mapM (sound_colorOf _) _).bind fun _ _ => trivial
    exact hgarbage.bind fun _ _ => trivial

/-- A document made of pages that were read. -/
def ReadFrom (pages : List NormalizedPage) (document : Ctk3Document) : Prop :=
  SegmentOk document.width pages ∧ pages.mapM normalizedToPage = .ok document.pages

def CanonicalPage (page : Ctk3Page) : Prop :=
  ∀ operation, page.operation = some operation → CanonicalOperation operation

theorem ReadFrom.canonical {pages : List NormalizedPage} {document : Ctk3Document}
    (h : ReadFrom pages document) : ∀ page ∈ document.pages, CanonicalPage page := by
  intro page hpage
  obtain ⟨source, hsource, hread⟩ := exists_of_mem_mapM h.2 hpage
  obtain ⟨cells, -, hread⟩ := bind_eq_ok.mp hread
  obtain ⟨garbage, -, hread⟩ := bind_eq_ok.mp hread
  cases hread
  exact (h.1.pages_ok source hsource).operation_canonical

theorem sound_normalizedToDocument {width : Nat} {pages : List NormalizedPage}
    (h : SegmentOk width pages) :
    Sound (ReadFrom pages) (normalizedToDocument width pages) := by
  rw [normalizedToDocument]
  cases hpages : pages.mapM normalizedToPage with
  | error e =>
    exact (Yields.mapM sound_normalizedToPage pages).stopped hpages
  | ok pages' => exact ⟨h, hpages⟩

theorem sound_bundleSegments (text : List Char) :
    Sound (fun _ => True) (bundleSegments text) := by
  have hall : ∀ payloads : List (List Char), Sound (fun _ => True)
      (payloads.forM fun payload => validateExactAlphabet payload .ctk64) := by
    intro payloads
    induction payloads with
    | nil => exact trivial
    | cons payload payloads ih => exact (sound_validateExactAlphabet _ _).bind fun _ _ => ih
  exact (sound_rejectIf _ _).bind fun _ _ => (hall _).bind fun _ _ => trivial

theorem sound_extractExactBundle (input : List Char) :
    Sound (fun _ => True) (extractExactBundle input) := by
  refine .ite (fun _ => ?_) fun _ => trivial
  exact (sound_bundleSegments _).bind fun _ _ => trivial

theorem sound_extractExactPayload (input : List Char) :
    Sound (fun _ => True) (extractExactPayload input) := by
  refine .ite (fun _ => ?_) fun _ => .ite (fun _ => ?_) fun _ => sound_invalid _
  · exact (sound_validateExactAlphabet _ _).bind fun _ _ => trivial
  · exact (sound_validateExactAlphabet _ _).bind fun _ _ => trivial

section

variable {b b' : Build} (hb : Wider b b')
include hb

theorem agrees_decodeSinglePayload (transport : Transport) (encoded : List Char) :
    Agrees (comparison b b') (decodeSinglePayload · transport encoded)
      fun document => ∃ pages, ReadFrom pages document := by
  refine (sound_decodePayload transport encoded).agrees.bind fun payload _ =>
    (sound_rejectIf _ _).agrees.bind fun _ hlength => ?_
  rw [not_or] at hlength
  exact (sound_splitChecksum hlength.1).agrees.bind fun split _ => (sound_rejectIf _ _).agrees.bind
    fun _ _ => (safe_readDocument _).bind fun result hresult =>
    ((sound_normalizedToDocument hresult.1).weaken fun document hdocument => ⟨_, hdocument⟩).agrees

theorem agrees_decodeSegments (payloads : List (List Char × Nat)) (width : Option Nat)
    {pages : List Ctk3Page} (hpages : pages.length ≤ maxBundlePages)
    (hcanonical : ∀ page ∈ pages, CanonicalPage page) :
    Agrees (comparison b b') (decodeSegments · payloads width pages)
      fun result => ∀ page ∈ result.2, CanonicalPage page := by
  induction payloads generalizing width pages with
  | nil => exact Yields.agrees hcanonical
  | cons payload payloads ih =>
    have hroom : Agrees (comparison b b') (bundleRoom · pages)
        (· = maxBundlePages - pages.length) := by
      simp only [bundleRoom, if_pos hpages]
      exact Yields.agrees rfl
    refine (agrees_decodeSinglePayload hb _ _).bind fun document ⟨_, hread⟩ => (sound_refuseIf _
      (by simp)).agrees.bind fun _ _ => hroom.bind fun room hroom => (sound_refuseIf _
      (by simp)).agrees.bind fun _ hfits => ih _ ?_ (List.forall_mem_append.mpr
      ⟨hcanonical, hread.canonical⟩)
    rw [List.length_append]
    omega

theorem agrees_decodeCtk3Exact (input : String) :
    Agrees (comparison b b') (decodeCtk3Exact · input)
      fun document => ∀ page ∈ document.pages, CanonicalPage page := by
  refine (sound_extractExactBundle _).agrees.bind fun bundle _ => ?_
  cases bundle with
  | none =>
    exact (sound_extractExactPayload _).agrees.bind fun found _ =>
      (agrees_decodeSinglePayload hb _ _).weaken fun _ ⟨_, hread⟩ => hread.canonical
  | some payloads =>
    exact (sound_refuseIf _ (by simp)).agrees.bind fun _ _ =>
      (agrees_decodeSegments hb _ none (Nat.zero_le _) (by simp)).bind fun _ hpages =>
      (sound_orReject _ _).agrees.bind fun _ _ => Yields.agrees hpages

end

/-- The exact entry point takes the text for one segment, and decodes it. -/
structure DecodesSingle (b : Build) (source : String) (document : Ctk3Document) : Prop where
  not_bundle : extractExactBundle source.toList = .ok none
  decodes : decodeCtk3Exact b source = .ok document

end Clearra.Proof.Ctk3
