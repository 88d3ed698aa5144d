import Clearra.Ctk3.BigNat
import Clearra.Ctk3.Document
import Clearra.Lib.Bits

/-!
# Bits into bytes and out again

The least significant bit of a byte comes first. A writer has exactly the bytes its bits need, and
the bits past its length are zero: that is what lets the reader insist on zero padding.
-/

namespace Clearra.Ctk3

open List

abbrev Byte := BitVec 8

/-- The bit at a position of a byte string. -/
def bitAt (bytes : List Byte) (i : Nat) : Bool := (bytes.getD (i / 8) 0).getLsbD (i % 8)

/-! ## Writing -/

/-- The bytes after one more bit at position `bitLen`. -/
def pushBit (bytes : List Byte) (bitLen : Nat) (value : Bool) : List Byte :=
  let bytes := if bitLen / 8 = bytes.length then bytes ++ [0] else bytes
  if value then bytes.modify (bitLen / 8) (· ||| 1#8 <<< (bitLen % 8)) else bytes

theorem length_pushBit {bytes : List Byte} {bitLen : Nat} (h : bytes.length = (bitLen + 7) / 8)
    (value : Bool) : (pushBit bytes bitLen value).length = (bitLen + 1 + 7) / 8 := by
  have hgrow : (if bitLen / 8 = bytes.length then bytes ++ [0] else bytes).length =
      (bitLen + 1 + 7) / 8 := by
    split
    · rw [length_append, length_singleton]
      omega
    · omega
  rw [pushBit]
  split
  · rw [length_modify]
    exact hgrow
  · exact hgrow

theorem bitAt_append_zero (bytes : List Byte) (i : Nat) : bitAt (bytes ++ [0]) i = bitAt bytes i := by
  rw [bitAt, bitAt, getD_eq_getElem?_getD, getD_eq_getElem?_getD]
  rcases Nat.lt_trichotomy (i / 8) bytes.length with h | h | h
  · rw [getElem?_append_left h]
  · rw [h, getElem?_append_right (Nat.le_refl _), Nat.sub_self, getElem?_eq_none (Nat.le_refl _)]
    rfl
  · rw [getElem?_eq_none (by rw [length_append, length_singleton]; omega),
      getElem?_eq_none (Nat.le_of_lt h)]

theorem bitAt_pushBit {bytes : List Byte} {bitLen : Nat} (h : bytes.length = (bitLen + 7) / 8)
    (value : Bool) (i : Nat) :
    bitAt (pushBit bytes bitLen value) i = (bitAt bytes i || (value && decide (i = bitLen))) := by
  have hgrow : ∀ i, bitAt (if bitLen / 8 = bytes.length then bytes ++ [0] else bytes) i =
      bitAt bytes i := by
    intro i
    split
    · exact bitAt_append_zero bytes i
    · rfl
  have hroom : bitLen / 8 < (if bitLen / 8 = bytes.length then bytes ++ [0] else bytes).length := by
    split
    · rw [length_append, length_singleton]
      omega
    · omega
  rw [pushBit, ← hgrow i]
  generalize (if bitLen / 8 = bytes.length then bytes ++ [0] else bytes) = grown at hroom
  cases value with
  | false => simp
  | true =>
    rw [if_pos rfl, Bool.true_and, bitAt, bitAt, getD_eq_getElem?_getD, getD_eq_getElem?_getD]
    by_cases hbyte : bitLen / 8 = i / 8
    · rw [← hbyte, getElem?_modify_eq, getElem?_eq_getElem hroom]
      have hone : (1#8 <<< (bitLen % 8)).getLsbD (i % 8) = decide (i = bitLen) := by
        rw [Lib.getLsbD_one_shiftLeft, decide_eq_decide]
        omega
      change (grown[bitLen / 8] ||| 1#8 <<< (bitLen % 8)).getLsbD (i % 8) = _
      rw [BitVec.getLsbD_or, hone]
      rfl
    · have hne : i ≠ bitLen := by
        rintro rfl
        exact hbyte rfl
      rw [getElem?_modify_ne _ _ hbyte, decide_eq_false hne, Bool.or_false]

/-- `BitWriter`. -/
structure BitWriter where
  bytes : List Byte
  bitLen : Nat
  length_eq : bytes.length = (bitLen + 7) / 8
  padding : ∀ i, bitLen ≤ i → bitAt bytes i = false

/-- What a writing function does to the writer. -/
abbrev Write := BitWriter → Except Ctk3CodecError BitWriter

namespace BitWriter

/-- `BitWriter::default()`. -/
def empty : BitWriter := ⟨[], 0, rfl, fun i _ => by simp [bitAt]⟩

def writeBit (w : BitWriter) (value : Bool) : BitWriter where
  bytes := pushBit w.bytes w.bitLen value
  bitLen := w.bitLen + 1
  length_eq := length_pushBit w.length_eq value
  padding := by
    intro i hi
    have hne : i ≠ w.bitLen := by omega
    rw [bitAt_pushBit w.length_eq, w.padding i (by omega), decide_eq_false hne, Bool.and_false]
    rfl

end BitWriter

/-- `write_bit`, as the other writes are. -/
def writeBit (value : Bool) : Write := fun w => .ok (w.writeBit value)

/-- The bits of `value` at the given places, one after another. -/
def writeBitsOf (bit : Nat → Bool) (width : Nat) (w : BitWriter) : BitWriter :=
  (List.range width).foldl (fun w i => w.writeBit (bit i)) w

def writeBits (value width : Nat) : Write := fun w =>
  if width > 32 ∨ (width < 32 ∧ value ≥ 2 ^ width) then .error .integerOverflow
  else .ok (writeBitsOf value.testBit width w)

def writeBigBits (value : BigNat) (width : Nat) : Write := fun w =>
  if value.bitLen > width then .error .integerOverflow
  else .ok (writeBitsOf value.bit width w)

def writeVarUint (value : Nat) : Write :=
  if value > 2 ^ 32 - 1 then fun _ => .error .integerOverflow
  else if value < 16 then writeBit false >=> writeBits value 4
  else if value < 256 then writeBits 1 2 >=> writeBits value 8
  else if value < 65536 then writeBits 3 3 >=> writeBits value 16
  else writeBits 7 3 >=> writeBits value 32

/-- The `i64` arithmetic cannot overflow: both callers pass differences of coordinates. -/
def writeSignedVarInt (value : Int) : Write :=
  writeVarUint (if 0 ≤ value then value * 2 else value * -2 - 1).toNat

/-- `for a in l { .. }`. -/
def writeMany {α : Type} (f : α → Write) : List α → Write
  | [] => pure
  | a :: l => f a >=> writeMany f l

def writeBytes (bytes : List Byte) : Write := writeMany (fun byte => writeBits byte.toNat 8) bytes

/-- `append`: the bits of another writer. -/
def append (other : BitWriter) : Write := fun w =>
  .ok (writeBitsOf (bitAt other.bytes) other.bitLen w)

/-- `append_shortest`: the first of the shortest candidates. -/
def shortest (first : BitWriter) (candidates : List BitWriter) : BitWriter :=
  candidates.foldl (fun best candidate =>
    if candidate.bitLen < best.bitLen then candidate else best) first

/-! ## Reading -/

/-- The build the reader runs in: how many bits a `usize` has, and whether arithmetic that leaves it
    panics instead of wrapping. -/
structure Build where
  pointerBits : Nat
  overflowChecks : Bool
  deriving DecidableEq

namespace Build

def native : Build := ⟨64, false⟩

/-- The same build with `overflow-checks` on. -/
def checked (b : Build) : Build := { b with overflowChecks := true }

/-- `usize::MAX`. -/
def maxUsize (b : Build) : Nat := 2 ^ b.pointerBits - 1

/-- `saturating_add`. -/
def saturatingAdd (b : Build) (m n : Nat) : Nat := min (m + n) b.maxUsize

end Build

/-- How a reading function ends early. -/
inductive Stop where
  /-- It returns an error. -/
  | error (e : Ctk3CodecError)
  /-- It panics: an index is not inside its vector. -/
  | outOfBounds
  /-- It panics: a sum or a difference is no `usize`. -/
  | overflow
  deriving DecidableEq

structure BitReader where
  bytes : List Byte
  bitOffset : Nat

/-- What a reading function does: the value and the moved reader, or how it ended. -/
abbrev Read := StateT BitReader (Except Stop)

/-- `return Err(e)`. -/
def refuse {α : Type} (e : Ctk3CodecError) : Read α := fun _ => .error (.error e)

def fail {α : Type} (reason : String) : Read α := refuse (.invalidPayload reason)

/-- `if p { return Err(..); }`. -/
def failIf (p : Prop) [Decidable p] (reason : String) : Read Unit :=
  if p then fail reason else pure ()

theorem failIf_of_not {p : Prop} [Decidable p] {reason : String} (h : ¬p) :
    failIf p reason = pure () := if_neg h

/-- `option.ok_or_else(..)?`. -/
def orFail {α : Type} (reason : String) : Option α → Read α
  | some a => pure a
  | none => fail reason

/-- A sum or a product in `usize` arithmetic. -/
def usize (b : Build) (n : Nat) : Read Nat :=
  if n < 2 ^ b.pointerBits then pure n
  else if b.overflowChecks then fun _ => .error .overflow
  else pure (n % 2 ^ b.pointerBits)

/-- A difference in `usize` arithmetic. -/
def usizeSub (b : Build) (m n : Nat) : Read Nat :=
  if n ≤ m then pure (m - n)
  else if b.overflowChecks then fun _ => .error .overflow
  else pure ((m + 2 ^ b.pointerBits - n) % 2 ^ b.pointerBits)

/-- `checked_add(..).ok_or(IntegerOverflow)?`, and the same of `checked_mul`. -/
def usizeChecked (b : Build) (n : Nat) : Read Nat :=
  if n < 2 ^ b.pointerBits then pure n else refuse .integerOverflow

/-- `xs[i]`. -/
def indexed {α : Type} (xs : List α) (i : Nat) : Read α :=
  match xs[i]? with
  | some a => pure a
  | none => fun _ => .error .outOfBounds

/-- `xs[i] = a`. -/
def stored {α : Type} (xs : List α) (i : Nat) (a : α) : Read (List α) :=
  if i < xs.length then pure (xs.set i a) else fun _ => .error .outOfBounds

/-- How many bits are in front of the reader. -/
def BitReader.bitsLeft (r : BitReader) : Nat := r.bytes.length * 8 - r.bitOffset

def readBit : Read Bool := fun r =>
  if r.bitOffset ≥ r.bytes.length * 8 then fail "payload ended unexpectedly" r
  else .ok (bitAt r.bytes r.bitOffset, { r with bitOffset := r.bitOffset + 1 })

/-- `count` values, first to last. -/
def readMany {α : Type} (p : Read α) : Nat → Read (List α)
  | 0 => pure []
  | count + 1 => do
    let a ← p
    let rest ← readMany p count
    pure (a :: rest)

/-- `count` bits, first to last. -/
def readBitList (count : Nat) : Read (List Bool) := readMany readBit count

/-- `value |= 1 << bit` for the bits that are set, first to last. -/
def numberOfBits (bits : List Bool) : Nat :=
  bits.zipIdx.foldl (fun value (bit, i) => if bit then value ||| 2 ^ i else value) 0

def readBits (width : Nat) : Read Nat := do
  failIf (width > 32) "bit width is invalid"
  let bits ← readBitList width
  pure (numberOfBits bits)

def readBigBits (width : Nat) : Read BigNat := do
  let bits ← readBitList width
  pure (bits.zipIdx.foldl (fun value (bit, i) => if bit then value.setBit i else value) .zero)

def readVarUint : Read Nat := do
  let more ← readBit
  if !more then readBits 4
  else do
    let more ← readBit
    if !more then readBits 8
    else do
      let more ← readBit
      if !more then readBits 16 else readBits 32

def readSignedVarInt : Read Int := do
  let value ← readVarUint
  pure (if value % 2 = 1 then -((value / 2 : Nat) + 1 : Int) else (value / 2 : Nat))

/-- `read_bits(8)? as u8`. -/
def readByte : Read Byte := do
  let byte ← readBits 8
  pure (BitVec.ofNat 8 byte)

/-- No comment is long enough for `length * 8` to leave a `usize`: the caller has checked it. -/
def readBytes (length : Nat) : Read (List Byte) := fun r =>
  if length * 8 > r.bitsLeft then fail "payload ended unexpectedly" r
  else readMany readByte length r

/-- What `assert_zero_padding` does with the bits that are left. -/
def assertZeroPadding : Read Unit := fun r =>
  if (List.range' r.bitOffset r.bitsLeft).any (bitAt r.bytes) then
    fail "payload has trailing data" r
  else .ok ((), { r with bitOffset := max r.bitOffset (r.bytes.length * 8) })

end Clearra.Ctk3
