import Mathlib

/-!
# Text as bytes

A Lean string is the UTF-8 of its characters, as a Rust one is, so the two directions undo each other
by what a string is.
-/

namespace Clearra.Lib

def utf8 (text : String) : List UInt8 := text.toByteArray.data.toList

/-- `std::str::from_utf8`. -/
def fromUtf8 (bytes : List UInt8) : Option String := String.fromUTF8? ⟨bytes.toArray⟩

@[simp] theorem utf8_append (left right : String) :
    utf8 (left ++ right) = utf8 left ++ utf8 right := by
  simp [utf8]

theorem utf8_singleton (c : Char) : utf8 (String.singleton c) = String.utf8EncodeChar c := by
  simp [utf8, List.utf8Encode]

theorem fromUtf8_utf8 (text : String) : fromUtf8 (utf8 text) = some text := by
  unfold fromUtf8 utf8 String.fromUTF8?
  rw [Array.toArray_toList, dif_pos text.isValidUTF8]
  rfl

theorem utf8_of_fromUtf8 {bytes : List UInt8} {text : String} (h : fromUtf8 bytes = some text) :
    utf8 text = bytes := by
  unfold fromUtf8 String.fromUTF8? at h
  unfold utf8
  split_ifs at h
  cases h
  rfl

theorem utf8_join (texts : List String) : utf8 (String.join texts) = texts.flatMap utf8 := by
  induction texts with
  | nil => rfl
  | cons text texts ih => rw [String.join_cons, utf8_append, ih, List.flatMap_cons]

@[simp] theorem length_utf8 (text : String) : (utf8 text).length = text.utf8ByteSize := rfl

end Clearra.Lib
