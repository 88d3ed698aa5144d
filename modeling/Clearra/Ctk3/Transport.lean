import Clearra.Ctk3.Bitstream
import Clearra.Lib.Regroup
import Clearra.Lib.Result

/-!
# Payloads as text

A payload travels as CTK64 (six bits a character) or, in old documents, as CTK85 (five characters for
four bytes). The exact entry points want nothing around it but white space; the compatible ones look
for a prefix anywhere in the text.

Text is a list of characters. The source counts bytes, but it compares with ASCII only: a character
that is none is found in no prefix and in no alphabet.
-/

namespace Clearra.Ctk3

def ctk3Prefix : List Char := ['c', 't', 'k', '3', '_']
def ctk3LegacyPrefix : List Char := ['c', 't', 'k', '3', '@']
def ctk3BundlePrefix : List Char := ['c', 't', 'k', '3', 'b', '_']

def ctk64Alphabet : List Char :=
  ['A', 'B', 'C', 'D', 'E', 'F', 'G', 'H', 'I', 'J', 'K', 'L', 'M', 'N', 'O', 'P', 'Q', 'R', 'S',
   'T', 'U', 'V', 'W', 'X', 'Y', 'Z', 'a', 'b', 'c', 'd', 'e', 'f', 'g', 'h', 'i', 'j', 'k', 'l',
   'm', 'n', 'o', 'p', 'q', 'r', 's', 't', 'u', 'v', 'w', 'x', 'y', 'z', '0', '1', '2', '3', '4',
   '5', '6', '7', '8', '9', '-', '_']

def ctk85Alphabet : List Char :=
  ['0', '1', '2', '3', '4', '5', '6', '7', '8', '9', 'a', 'b', 'c', 'd', 'e', 'f', 'g', 'h', 'i',
   'j', 'k', 'l', 'm', 'n', 'o', 'p', 'q', 'r', 's', 't', 'u', 'v', 'w', 'x', 'y', 'z', 'A', 'B',
   'C', 'D', 'E', 'F', 'G', 'H', 'I', 'J', 'K', 'L', 'M', 'N', 'O', 'P', 'Q', 'R', 'S', 'T', 'U',
   'V', 'W', 'X', 'Y', 'Z', '.', '-', ':', '+', '=', '^', '!', '/', '*', '?', '&', '<', '>', '(',
   ')', '[', ']', '{', '}', '@', '%', '$', '#']

def maxCtk64Characters : Nat := (maxPayloadBytes * 8 + 5) / 6
def maxCtk85Characters : Nat := (maxPayloadBytes + 3) / 4 * 5

inductive Transport where
  | ctk64 | ctk85
  deriving DecidableEq

def Transport.alphabet : Transport → List Char
  | ctk64 => ctk64Alphabet
  | ctk85 => ctk85Alphabet

def Transport.maximum : Transport → Nat
  | ctk64 => maxCtk64Characters
  | ctk85 => maxCtk85Characters

/-- How many characters a group has; one character alone stands for no byte. -/
def Transport.modulus : Transport → Nat
  | ctk64 => 4
  | ctk85 => 5

def Transport.header : Transport → List Char
  | ctk64 => ctk3Prefix
  | ctk85 => ctk3LegacyPrefix

/-- `return Err(invalid(reason))`, where nothing is read. -/
def reject {α : Type} (reason : String) : Except Stop α := .error (.error (.invalidPayload reason))

def rejectIf (p : Prop) [Decidable p] (reason : String) : Except Stop Unit :=
  Lib.refuseIf p (.error (.invalidPayload reason))

def orReject {α : Type} (reason : String) : Option α → Except Stop α
  | some a => .ok a
  | none => reject reason

/-! ## CTK64 -/

def ctk64Char (digit : Nat) : Char := ctk64Alphabet.getD digit 'A'

/-- The digit that is still open gets zero bits. -/
def closeCtk64 (s : Lib.Regrouping) : List Nat :=
  if s.count > 0 then s.digits ++ [s.value * 2 ^ (6 - s.count)] else s.digits

def encodeCtk64 (bytes : List Byte) : List Char :=
  (closeCtk64 (Lib.regroup 8 6 (bytes.map BitVec.toNat))).map ctk64Char

def validateExactAlphabet (payload : List Char) (transport : Transport) : Except Stop Unit :=
  rejectIf (payload = [] ∨ payload.length > transport.maximum ∨
    payload.length % transport.modulus = 1 ∨ payload.any fun c => !transport.alphabet.contains c)
    "transport payload is invalid"

/-- `position(..).ok_or_else(..)?`. -/
def digitOf (alphabet : List Char) (reason : String) (c : Char) : Except Stop Nat :=
  if c ∈ alphabet then .ok (alphabet.idxOf c) else reject reason

def decodeCtk64 (encoded : List Char) : Except Stop (List Byte) := do
  validateExactAlphabet encoded .ctk64
  let digits ← encoded.mapM (digitOf ctk64Alphabet "CTK64 character is invalid")
  let s := Lib.regroup 6 8 digits
  rejectIf (s.value ≠ 0) "CTK64 trailing bits are non-zero"
  let bytes := s.digits.map (BitVec.ofNat 8)
  rejectIf (encodeCtk64 bytes ≠ encoded) "CTK64 payload is not canonical"
  pure bytes

/-! ## CTK85 -/

def decodeCtk85Value (encoded : List Char) : Except Stop Nat := do
  let digits ← encoded.mapM (digitOf ctk85Alphabet "CTK85 character is invalid")
  pure (digits.foldl (fun value digit => value * 85 + digit) 0)

/-- The lowest `count` bytes, most significant first. -/
def bigEndian : Nat → Nat → List Byte
  | 0, _ => []
  | count + 1, value => bigEndian count (value / 256) ++ [BitVec.ofNat 8 value]

/-- Blocks of five characters, and a shorter one at the end. -/
def decodeCtk85Blocks : List Char → Except Stop (List Byte)
  | [] => pure []
  | c1 :: c2 :: c3 :: c4 :: c5 :: rest => do
    let value ← decodeCtk85Value [c1, c2, c3, c4, c5]
    rejectIf (value > 2 ^ 32 - 1) "CTK85 block overflows 32 bits"
    let bytes ← decodeCtk85Blocks rest
    pure (bigEndian 4 value ++ bytes)
  | c :: short => do
    let value ← decodeCtk85Value (c :: short)
    rejectIf (value ≥ 2 ^ (short.length * 8)) "CTK85 partial block overflows"
    pure (bigEndian short.length value)

def decodeCtk85 (encoded : List Char) : Except Stop (List Byte) := do
  validateExactAlphabet encoded .ctk85
  decodeCtk85Blocks encoded

def decodePayload (transport : Transport) (encoded : List Char) : Except Stop (List Byte) :=
  match transport with
  | .ctk64 => decodeCtk64 encoded
  | .ctk85 => decodeCtk85 encoded

/-! ## Checksum -/

def crcStep (crc : BitVec 16) : BitVec 16 :=
  if crc.getLsbD 15 then (crc <<< 1) ^^^ 0x1021#16 else crc <<< 1

def crcByte (crc : BitVec 16) (byte : Byte) : BitVec 16 :=
  Nat.iterate crcStep 8 (crc ^^^ (byte.setWidth 16 <<< 8))

def crc16 (bytes : List Byte) : BitVec 16 := bytes.foldl crcByte 0xffff#16

/-- `to_be_bytes`. -/
def crcBytes (crc : BitVec 16) : List Byte := [(crc >>> 8).setWidth 8, crc.setWidth 8]

/-! ## Finding the payload -/

/-- `char::is_whitespace`. -/
def isWhitespace (c : Char) : Bool :=
  let n := c.toNat
  (9 ≤ n && n ≤ 13) || n == 0x20 || n == 0x85 || n == 0xa0 || n == 0x1680 ||
    (0x2000 ≤ n && n ≤ 0x200a) || n == 0x2028 || n == 0x2029 || n == 0x202f || n == 0x205f ||
    n == 0x3000

def trimWith (space : Char → Bool) (source : List Char) : List Char :=
  (source.dropWhile space).rdropWhile space

/-- `str::trim`. -/
def trim (source : List Char) : List Char := trimWith isWhitespace source

def startsWithIgnoreAsciiCase (source header : List Char) : Bool :=
  (source.take header.length).map Char.toLower == header

/-- Where the needle, which is in lower case, is found first. -/
def findIgnoreAsciiCase (needle : List Char) : List Char → Option Nat
  | [] => none
  | c :: source =>
    if startsWithIgnoreAsciiCase (c :: source) needle then some 0
    else (findIgnoreAsciiCase needle source).map (· + 1)

def extractExactPayload (input : List Char) : Except Stop (Transport × List Char) := do
  let source := trim input
  if startsWithIgnoreAsciiCase source ctk3Prefix then
    let payload := source.drop ctk3Prefix.length
    validateExactAlphabet payload .ctk64
    pure (.ctk64, payload)
  else if startsWithIgnoreAsciiCase source ctk3LegacyPrefix then
    let payload := source.drop ctk3LegacyPrefix.length
    validateExactAlphabet payload .ctk85
    pure (.ctk85, payload)
  else reject "no CTK3 header was found"

/-- Which prefix comes first. -/
def locatePayload (source : List Char) : Option (Transport × Nat) :=
  match findIgnoreAsciiCase ctk3Prefix source, findIgnoreAsciiCase ctk3LegacyPrefix source with
  | some left, some right =>
    if left < right then some (.ctk64, left + ctk3Prefix.length)
    else some (.ctk85, right + ctk3LegacyPrefix.length)
  | some left, none => some (.ctk64, left + ctk3Prefix.length)
  | none, some right => some (.ctk85, right + ctk3LegacyPrefix.length)
  | none, none => none

def extractCompatiblePayload (input : List Char) : Except Stop (Transport × List Char) := do
  let source := trim input
  let (transport, start) ← orReject "no CTK3 header was found" (locatePayload source)
  let payload := (source.drop start).takeWhile (transport.alphabet.contains ·)
  rejectIf (payload = []) "payload is empty"
  pure (transport, payload)

/-- The segments between dots, each one checked. -/
def bundleSegments (text : List Char) : Except Stop (List (List Char)) := do
  let payloads := text.splitOn '.'
  rejectIf (payloads.length < 2) "bundle payload is invalid"
  payloads.forM fun payload => validateExactAlphabet payload .ctk64
  pure payloads

def extractExactBundle (input : List Char) : Except Stop (Option (List (List Char))) :=
  let source := trim input
  if startsWithIgnoreAsciiCase source ctk3BundlePrefix then
    (bundleSegments (source.drop ctk3BundlePrefix.length)).map some
  else .ok none

def extractCompatibleBundle (input : List Char) : Except Stop (Option (List (List Char))) :=
  let source := trim input
  match findIgnoreAsciiCase ctk3BundlePrefix source with
  | none => .ok none
  | some position =>
    let text := (source.drop (position + ctk3BundlePrefix.length)).takeWhile
      fun c => c == '.' || ctk64Alphabet.contains c
    (bundleSegments text).map some

end Clearra.Ctk3
