import Clearra.Proof.Ctk3.Decoding

/-!
# What the width of `usize` changes

Whether decoding depends on the build is a question about a few numbers of the text: those that
something is added to before they are compared with anything. If one of the sums leaves `usize`, the
32-bit build wraps, or answers with an error that the 64-bit build does not have.
-/

namespace Clearra.Proof.Ctk3

open Clearra.Ctk3

theorem wider_native : Wider Build.native.checked .native := ⟨⟨rfl, by decide⟩, by decide⟩

variable {b b' : Build} {input : String}

def FitsUsize (b : Build) (input : String) : Prop :=
  ∀ e, decodeCtk3Exact b input = .error e → ¬Overflows e

/-- Where nothing overflows, a wider build and the unchecked one do the same. -/
theorem FitsUsize.eq (hfits : FitsUsize b input) (h : Wider b b') :
    decodeCtk3Exact b' input = decodeCtk3Exact b input := by
  obtain heq | ⟨e, he, hexcused⟩ := (agrees_decodeCtk3Exact h input).follows
  · exact heq.symm
  · refine absurd ?_ (hfits e he)
    cases e with
    | error e => exact hexcused.1
    | outOfBounds => exact hexcused
    | overflow => trivial

/-- With 64 bits no sum is too large. -/
theorem fits_native (input : String) : FitsUsize Build.native.checked input := by
  intro e he hoverflows
  rcases (agrees_decodeCtk3Exact wider_native input).yields.stopped he with hordinary | ⟨-, hnarrow⟩
  · exact (comparison _ .native).not_halts e hordinary hoverflows
  · exact absurd hnarrow (Nat.lt_irrefl 64)

theorem native_eq_checked (input : String) :
    decodeCtk3Exact .native input = decodeCtk3Exact Build.native.checked input :=
  (fits_native input).eq wider_native

end Clearra.Proof.Ctk3
