import Clearra.Ctk3.Bitstream
import Clearra.Lib.Codec
import Clearra.Proof.Ctk3.BigNat

/-!
# What is written is read back

A writer is the list of the bits it has taken, a reader the list of the bits in front of it. With
that reading the primitives of the two sides pair up, and everything above is written and read with
the rules of `Lib.Encodes`.
-/

namespace Clearra.Proof.Ctk3

open Clearra.Ctk3 List

/-- The bits a writer has taken. -/
def bits (w : BitWriter) : List Bool := (List.range w.bitLen).map (bitAt w.bytes)

/-- The bits in front of a reader, padding included. -/
def remaining (r : BitReader) : List Bool :=
  (List.range' r.bitOffset r.bitsLeft).map (bitAt r.bytes)

abbrev Reads {α : Type} (p : Read α) (bs : List Bool) (a : α) : Prop := Lib.Reads remaining p bs a

abbrev Encodes {α : Type} (f : Write) (p : Read α) (a : α) : Prop :=
  Lib.Encodes remaining bits f p a

/-! ## Writers -/

theorem bits_writeBit (w : BitWriter) (value : Bool) :
    bits (w.writeBit value) = bits w ++ [value] := by
  have hold : ∀ i ∈ List.range w.bitLen, bitAt (w.writeBit value).bytes i = bitAt w.bytes i := by
    intro i hi
    have hne : i ≠ w.bitLen := (mem_range.mp hi).ne
    change bitAt (pushBit w.bytes w.bitLen value) i = _
    rw [bitAt_pushBit w.length_eq, decide_eq_false hne, Bool.and_false, Bool.or_false]
  have hnew : bitAt (w.writeBit value).bytes w.bitLen = value := by
    change bitAt (pushBit w.bytes w.bitLen value) w.bitLen = _
    rw [bitAt_pushBit w.length_eq, w.padding _ (Nat.le_refl _), Bool.false_or]
    simp
  change (List.range (w.bitLen + 1)).map (bitAt (w.writeBit value).bytes) = _
  rw [range_succ, map_append, map_congr_left hold, map_singleton, hnew]
  rfl

theorem bits_writeBitsOf (bit : Nat → Bool) (width : Nat) (w : BitWriter) :
    bits (writeBitsOf bit width w) = bits w ++ (List.range width).map bit := by
  induction width with
  | zero => simp [writeBitsOf]
  | succ width ih =>
    rw [writeBitsOf] at ih ⊢
    rw [range_succ, foldl_append, foldl_cons, foldl_nil, bits_writeBit, ih,
      map_append, map_singleton, append_assoc]

@[simp] theorem bits_empty : bits .empty = [] := rfl

/-! ## Readers -/

theorem reads_readBit (b : Bool) : Reads readBit [b] b := by
  intro r rest h
  rw [remaining, BitReader.bitsLeft] at h
  cases hcount : r.bytes.length * 8 - r.bitOffset with
  | zero =>
    rw [hcount] at h
    simp at h
  | succ count =>
    rw [hcount, range'_succ, map_cons, cons_append, nil_append] at h
    obtain ⟨hbit, hrest⟩ := List.cons.inj h
    refine ⟨{ r with bitOffset := r.bitOffset + 1 }, ?_, ?_⟩
    · rw [readBit, if_neg (by omega), hbit]
    · have hcount' : r.bytes.length * 8 - (r.bitOffset + 1) = count := by omega
      rw [remaining, BitReader.bitsLeft, hcount']
      exact hrest

variable {α : Type} {p : Read α}

theorem reads_readMany {bs : α → List Bool} {l : List α}
    (h : ∀ a ∈ l, Reads p (bs a) a) : Reads (readMany p l.length) (l.flatMap bs) l := by
  induction l with
  | nil => exact Lib.Reads.pure []
  | cons a l ih =>
    have htail : Reads (do let rest ← readMany p l.length; pure (a :: rest)) (l.flatMap bs ++ [])
        (a :: l) := (ih fun c hc => h c (mem_cons_of_mem _ hc)).bind (Lib.Reads.pure _)
    rw [append_nil] at htail
    exact (h a mem_cons_self).bind htail

theorem reads_readBitList (bs : List Bool) : Reads (readBitList bs.length) bs bs := by
  have h := reads_readMany fun b (_ : b ∈ bs) => reads_readBit b
  rwa [flatMap_singleton'] at h

theorem numberOfBits_testBit {value width : Nat} (h : value < 2 ^ width) :
    numberOfBits ((List.range width).map value.testBit) = value := by
  have hbits : ∀ bs : List Bool, ∀ j, (numberOfBits bs).testBit j = bs.getD j false := by
    intro bs
    induction bs using List.reverseRecOn with
    | nil => simp [numberOfBits]
    | append_singleton bs b ih =>
      intro j
      have hstep : numberOfBits (bs ++ [b]) =
          if b then numberOfBits bs ||| 2 ^ bs.length else numberOfBits bs := by
        rw [numberOfBits, zipIdx_append, foldl_append, zipIdx_singleton,
          foldl_cons, foldl_nil, Nat.zero_add]
        rfl
      have hsnoc : (bs ++ [b]).getD j false = (bs.getD j false || (b && decide (bs.length = j))) := by
        rw [getD_eq_getElem?_getD, getD_eq_getElem?_getD]
        rcases Nat.lt_trichotomy j bs.length with hj | hj | hj
        · rw [getElem?_append_left hj, decide_eq_false hj.ne', Bool.and_false, Bool.or_false]
        · rw [hj, getElem?_append_right (Nat.le_refl _), Nat.sub_self,
            getElem?_eq_none (Nat.le_refl _)]
          simp
        · rw [getElem?_eq_none (by rw [length_append, length_singleton]; omega),
            getElem?_eq_none hj.le, decide_eq_false hj.ne, Bool.and_false, Bool.or_false]
      rw [hstep, hsnoc, ← ih]
      cases b with
      | false => simp
      | true => rw [if_pos rfl, Nat.testBit_or, Nat.testBit_two_pow, Bool.true_and]
  refine Nat.eq_of_testBit_eq fun j => ?_
  rw [hbits, getD_eq_getElem?_getD, getElem?_map]
  rcases Nat.lt_or_ge j width with hj | hj
  · rw [getElem?_range hj]
    rfl
  · rw [getElem?_eq_none (by rw [length_range]; exact hj),
      Nat.testBit_lt_two_pow (Nat.lt_of_lt_of_le h (Nat.pow_le_pow_right (by decide) hj))]
    rfl

/-! ## The pairs -/

theorem encodes_writeBit (value : Bool) : Encodes (writeBit value) readBit value := by
  intro w w' h
  cases h
  exact ⟨[value], bits_writeBit w value, reads_readBit value⟩

/-- Bits by their places, read as a list and then put together. -/
theorem encodes_writeBitsOf {bit : Nat → Bool} {width : Nat} {build : List Bool → α}
    {a : α} (h : build ((List.range width).map bit) = a) :
    Encodes (fun w => .ok (writeBitsOf bit width w))
      (do let bits ← readBitList width; pure (build bits)) a := by
  intro w w' hw
  cases hw
  refine ⟨_, bits_writeBitsOf bit width w, ?_⟩
  have hlist := reads_readBitList ((List.range width).map bit)
  rw [length_map, length_range] at hlist
  rw [← append_nil ((List.range width).map bit), ← h]
  exact hlist.bind (Lib.Reads.pure _)

theorem encodes_writeBits {value width : Nat} (hvalue : value < 2 ^ 32) :
    Encodes (writeBits value width) (readBits width) value := by
  intro w w' hw
  rw [writeBits] at hw
  split at hw
  · simp at hw
  · rename_i hwidth
    rw [not_or] at hwidth
    have hfit : value < 2 ^ width := by
      by_contra hge
      rcases Nat.lt_or_ge width 32 with hlt | hge32
      · exact hwidth.2 ⟨hlt, Nat.le_of_not_lt hge⟩
      · obtain rfl : width = 32 := by omega
        exact hge hvalue
    obtain ⟨bs, hbs, hreads⟩ := encodes_writeBitsOf (numberOfBits_testBit hfit) w w' hw
    refine ⟨bs, hbs, ?_⟩
    rw [readBits, failIf_of_not hwidth.1, pure_bind]
    exact hreads

theorem toNat_setBits (bs : List Bool) : toNat (bs.zipIdx.foldl (fun value (bit, i) =>
    if bit then value.setBit i else value) .zero) = numberOfBits bs := by
  induction bs using List.reverseRecOn with
  | nil => rfl
  | append_singleton bs b ih =>
    rw [numberOfBits, zipIdx_append, foldl_append, foldl_append,
      zipIdx_singleton, foldl_cons, foldl_nil, foldl_cons, foldl_nil,
      ← numberOfBits, ← ih]
    cases b with
    | false => rfl
    | true => exact toNat_setBit _ _

theorem encodes_writeBigBits (value : BigNat) (width : Nat) :
    Encodes (writeBigBits value width) (readBigBits width) value := by
  intro w w' hw
  rw [writeBigBits] at hw
  split at hw
  · simp at hw
  · rename_i hlen
    have hfit := toNat_lt_of_bitLen_le (Nat.le_of_not_gt hlen)
    refine encodes_writeBitsOf (toNat_injective ?_) w w' hw
    rw [toNat_setBits, map_congr_left fun i _ => bit_eq value i, numberOfBits_testBit hfit]

abbrev Appends (f : Write) (bs : List Bool) : Prop := Lib.Appends bits f bs

theorem appends_writeBit (value : Bool) : Appends (writeBit value) [value] := by
  intro w w' h
  cases h
  exact bits_writeBit w value

theorem appends_writeBits (value width : Nat) :
    Appends (writeBits value width) ((List.range width).map value.testBit) := by
  intro w w' h
  rw [writeBits] at h
  split at h
  · simp at h
  · cases h
    exact bits_writeBitsOf _ width w

section

variable {α : Type} {p q : Read α} {cs : List Bool} {a : α}

theorem reads_unset (h : Reads p cs a) :
    Reads (readBit >>= fun bit => if !bit then p else q) (false :: cs) a :=
  (reads_readBit false).bind h

theorem reads_set (h : Reads q cs a) :
    Reads (readBit >>= fun bit => if !bit then p else q) (true :: cs) a :=
  (reads_readBit true).bind h

end

/-- The four lengths a number is written in, by the bits that announce them. -/
theorem reads_readVarUint {cs : List Bool} {value : Nat} :
    (Reads (readBits 4) cs value → Reads readVarUint (false :: cs) value) ∧
    (Reads (readBits 8) cs value → Reads readVarUint (true :: false :: cs) value) ∧
    (Reads (readBits 16) cs value → Reads readVarUint (true :: true :: false :: cs) value) ∧
    (Reads (readBits 32) cs value → Reads readVarUint (true :: true :: true :: cs) value) :=
  ⟨fun h => reads_unset h, fun h => reads_set (reads_unset h),
    fun h => reads_set (reads_set (reads_unset h)),
    fun h => reads_set (reads_set (reads_set h))⟩

theorem encodes_writeVarUint (value : Nat) : Encodes (writeVarUint value) readVarUint value := by
  have h1 : (List.range 2).map (Nat.testBit 1) = [true, false] := by decide
  have h3 : (List.range 3).map (Nat.testBit 3) = [true, true, false] := by decide
  have h7 : (List.range 3).map (Nat.testBit 7) = [true, true, true] := by decide
  rw [writeVarUint]
  split
  · intro w w' h
    simp at h
  · rename_i hmax
    have hvalue : value < 2 ^ 32 := by omega
    split
    · exact .tag (appends_writeBit false) (encodes_writeBits hvalue)
        fun cs h => reads_readVarUint.1 h
    · split
      · exact .tag (h1 ▸ appends_writeBits 1 2) (encodes_writeBits hvalue)
          fun cs h => reads_readVarUint.2.1 h
      · split
        · exact .tag (h3 ▸ appends_writeBits 3 3) (encodes_writeBits hvalue)
            fun cs h => reads_readVarUint.2.2.1 h
        · exact .tag (h7 ▸ appends_writeBits 7 3) (encodes_writeBits hvalue)
            fun cs h => reads_readVarUint.2.2.2 h

theorem encodes_writeSignedVarInt (value : Int) :
    Encodes (writeSignedVarInt value) readSignedVarInt value := by
  refine (encodes_writeVarUint _).andThen ?_
  have hvalue : ∀ n : Nat, n = (if 0 ≤ value then value * 2 else value * -2 - 1).toNat →
      (if n % 2 = 1 then -((n / 2 : Nat) + 1 : Int) else (n / 2 : Nat)) = value := by
    intro n hn
    split at hn
    · rw [if_neg (by omega)]
      omega
    · rw [if_pos (by omega)]
      omega
  rw [hvalue _ rfl]
  exact Lib.Reads.pure value

theorem encodes_writeMany {f : α → Write} {l : List α}
    (h : ∀ a ∈ l, Encodes (f a) p a) : Encodes (writeMany f l) (readMany p l.length) l := by
  induction l with
  | nil => exact Lib.Encodes.pure []
  | cons a l ih =>
    exact (h a mem_cons_self).seq
      ((ih fun c hc => h c (mem_cons_of_mem _ hc)).andThen (Lib.Reads.pure _))

theorem encodes_writeByte (byte : Byte) : Encodes (writeBits byte.toNat 8) readByte byte := by
  refine (encodes_writeBits (byte.isLt.trans (by decide))).andThen ?_
  rw [BitVec.ofNat_toNat, BitVec.setWidth_eq]
  exact Lib.Reads.pure _

theorem encodes_writeBytes (bytes : List Byte) :
    Encodes (writeBytes bytes) (readMany readByte bytes.length) bytes :=
  encodes_writeMany fun byte _ => encodes_writeByte byte

theorem length_remaining (r : BitReader) : (remaining r).length = r.bitsLeft := by
  rw [remaining, length_map, length_range']

theorem encodes_writeBytes_checked (bytes : List Byte) :
    Encodes (writeBytes bytes) (readBytes bytes.length) bytes := by
  have hlength : ∀ bytes, ∀ w w', writeBytes bytes w = .ok w' →
      ∃ bs, bits w' = bits w ++ bs ∧ bs.length = bytes.length * 8 := by
    intro bytes
    induction bytes with
    | nil =>
      intro w w' h
      cases h
      exact ⟨[], (append_nil _).symm, rfl⟩
    | cons byte bytes ih =>
      intro w w' h
      change writeBits byte.toNat 8 w >>= writeBytes bytes = _ at h
      cases hfirst : writeBits byte.toNat 8 w with
      | error e =>
        rw [hfirst] at h
        exact absurd h (by simp [bind, Except.bind])
      | ok w1 =>
        rw [hfirst] at h
        obtain ⟨bs, hbs, hlen⟩ := ih w1 w' h
        refine ⟨_, by rw [hbs, appends_writeBits _ _ w w1 hfirst, append_assoc], ?_⟩
        rw [length_append, hlen, length_map, length_range, length_cons]
        omega
  intro w w' h
  obtain ⟨bs, hbs, hreads⟩ := encodes_writeBytes bytes w w' h
  obtain ⟨bs', hbs', hlen⟩ := hlength bytes w w' h
  obtain rfl := append_cancel_left (hbs.symm.trans hbs')
  refine ⟨bs, hbs, fun r rest hr => ?_⟩
  have hroom := length_remaining r
  rw [hr, length_append, hlen] at hroom
  rw [readBytes, if_neg (by omega)]
  exact hreads r rest hr

/-! ## Candidates -/

/-- A candidate that reads back as `a`. -/
abbrev Candidate {α : Type} (p : Read α) (a : α) (c : BitWriter) : Prop := Reads p (bits c) a

theorem Candidate.of_encodes {f : Write} {a : α} {c : BitWriter}
    (h : Encodes f p a) (hc : f .empty = .ok c) : Candidate p a c := by
  obtain ⟨bs, hbs, hreads⟩ := h .empty c hc
  rw [bits_empty, nil_append] at hbs
  rw [Candidate, hbs]
  exact hreads

theorem encodes_append {a : α} {c : BitWriter} (h : Candidate p a c) : Encodes (append c) p a := by
  intro w w' hw
  cases hw
  exact ⟨bits c, bits_writeBitsOf _ _ w, h⟩

theorem shortest_mem (first : BitWriter) (candidates : List BitWriter) :
    shortest first candidates ∈ first :: candidates := by
  induction candidates using List.reverseRecOn with
  | nil => exact mem_singleton.mpr rfl
  | append_singleton candidates last ih =>
    rw [shortest, foldl_append, foldl_cons, foldl_nil, ← shortest]
    split
    · simp
    · rcases mem_cons.mp ih with h | h
      · rw [h]
        exact mem_cons_self
      · exact mem_cons_of_mem _ (mem_append_left _ h)

theorem encodes_append_shortest {a : α} {first : BitWriter}
    {candidates : List BitWriter} (h : ∀ c ∈ first :: candidates, Candidate p a c) :
    Encodes (append (shortest first candidates)) p a :=
  encodes_append (h _ (shortest_mem first candidates))

/-! ## The whole stream -/

theorem remaining_body (w : BitWriter) :
    ∃ k, remaining ⟨w.bytes, 0⟩ = bits w ++ List.replicate k false := by
  have hlen := w.length_eq
  refine ⟨w.bytes.length * 8 - w.bitLen, ?_⟩
  have hsplit : w.bytes.length * 8 = w.bitLen + (w.bytes.length * 8 - w.bitLen) := by omega
  rw [remaining, BitReader.bitsLeft, Nat.sub_zero, bits, ← range_eq_range']
  conv_lhs => rw [hsplit, range_add]
  rw [map_append, map_map]
  congr 1
  rw [eq_replicate_iff]
  refine ⟨by simp, fun b hb => ?_⟩
  obtain ⟨i, -, rfl⟩ := mem_map.mp hb
  exact w.padding _ (Nat.le_add_right _ _)

theorem assertZeroPadding_ok {r : BitReader} {k : Nat}
    (h : remaining r = List.replicate k false) : ∃ r', assertZeroPadding r = .ok ((), r') := by
  refine ⟨{ r with bitOffset := max r.bitOffset (r.bytes.length * 8) }, ?_⟩
  have hnone : (List.range' r.bitOffset r.bitsLeft).any (bitAt r.bytes) = false := by
    rw [any_eq_false]
    intro i hi hbit
    have hmem : bitAt r.bytes i ∈ remaining r := mem_map_of_mem hi
    rw [h, hbit] at hmem
    exact absurd (eq_of_mem_replicate hmem) (by simp)
  rw [assertZeroPadding, hnone, if_neg (by simp)]

end Clearra.Proof.Ctk3
