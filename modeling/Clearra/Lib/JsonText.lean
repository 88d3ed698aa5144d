import Clearra.Lib.Utf8

/-!
# JSON text

How `serde_json` writes a string and a flat object, and the outer shape every text it reads has:
brackets that match, strings that end, bare tokens and separators where the grammar puts them. The
shape is a machine over bytes. It asks less than the grammar does (any run of token characters
passes for a number, any character for an escape), so that a reader is trusted only with rejecting
what no JSON reader accepts.
-/

namespace Clearra.Lib

/-! ## Writing -/

/-- The two lower-case hexadecimal digits of a byte below `0x20`. -/
def controlHex (code : Nat) : String :=
  String.ofList [Nat.digitChar (code / 16), Nat.digitChar (code % 16)]

/-- `format_escaped_str_contents`, one character. -/
def escapeChar (c : Char) : String :=
  if c = '"' then "\\\""
  else if c = '\\' then "\\\\"
  else if c.toNat = 8 then "\\b"
  else if c.toNat = 9 then "\\t"
  else if c.toNat = 10 then "\\n"
  else if c.toNat = 12 then "\\f"
  else if c.toNat = 13 then "\\r"
  else if c.toNat < 32 then "\\u00" ++ controlHex c.toNat
  else String.singleton c

/-- `serde_json::to_string` of a string. -/
def jsonString (value : String) : String :=
  "\"" ++ String.join (value.toList.map escapeChar) ++ "\""

def optionalJsonString : Option String → String
  | none => "null"
  | some value => jsonString value

/-- The members of a flat object, with a comma before each but the first. -/
def renderMembers : List (String × Option String) → String
  | [] => ""
  | [(key, value)] => jsonString key ++ ":" ++ optionalJsonString value
  | (key, value) :: rest =>
    jsonString key ++ ":" ++ optionalJsonString value ++ "," ++ renderMembers rest

/-- An object whose values are strings or null. -/
def renderObject (fields : List (String × Option String)) : String :=
  "\x7b" ++ renderMembers fields ++ "\x7d"

/-! ## The shape of a text -/

inductive Frame where
  | object | array
  deriving DecidableEq

inductive Mode where
  | value | firstItem | firstKey | key | colon | string (isKey : Bool) | escape (isKey : Bool)
  | token | after
  deriving DecidableEq

/-- What is expected next, and the brackets still open, innermost first. -/
structure Scan where
  mode : Mode
  stack : List Frame
  deriving DecidableEq

def isSpace (b : UInt8) : Bool := b == 0x20 || b == 0x09 || b == 0x0a || b == 0x0d

/-- The characters of numbers and of `true`, `false`, `null`. -/
def isToken (b : UInt8) : Bool :=
  (0x30 ≤ b && b ≤ 0x39) || (0x41 ≤ b && b ≤ 0x5a) || (0x61 ≤ b && b ≤ 0x7a) ||
    b == 0x2b || b == 0x2d || b == 0x2e

namespace Scan

def openValue (stack : List Frame) (b : UInt8) : Option Scan :=
  if b = 0x7b then some ⟨.firstKey, .object :: stack⟩
  else if b = 0x5b then some ⟨.firstItem, .array :: stack⟩
  else if b = 0x22 then some ⟨.string false, stack⟩
  else if isToken b then some ⟨.token, stack⟩
  else none

/-- Closing the innermost bracket with its own closing byte. -/
def pop (stack : List Frame) (b : UInt8) : Option Scan :=
  match stack with
  | .object :: rest => if b = 0x7d then some ⟨.after, rest⟩ else none
  | .array :: rest => if b = 0x5d then some ⟨.after, rest⟩ else none
  | [] => none

def closeValue (stack : List Frame) (b : UInt8) : Option Scan :=
  if b = 0x2c then
    match stack with
    | .object :: _ => some ⟨.key, stack⟩
    | .array :: _ => some ⟨.value, stack⟩
    | [] => none
  else pop stack b

def step (scan : Scan) (b : UInt8) : Option Scan :=
  match scan.mode with
  | .string isKey =>
    if b = 0x22 then some ⟨if isKey then .colon else .after, scan.stack⟩
    else if b = 0x5c then some ⟨.escape isKey, scan.stack⟩
    else if b < 0x20 then none
    else some scan
  | .escape isKey => some ⟨.string isKey, scan.stack⟩
  | .token =>
    if isToken b then some scan
    else if isSpace b then some ⟨.after, scan.stack⟩
    else closeValue scan.stack b
  | mode =>
    if isSpace b then some scan
    else
      match mode with
      | .value => openValue scan.stack b
      | .firstItem => if b = 0x5d then pop scan.stack b else openValue scan.stack b
      | .firstKey => if b = 0x22 then some ⟨.string true, scan.stack⟩ else pop scan.stack b
      | .key => if b = 0x22 then some ⟨.string true, scan.stack⟩ else none
      | .colon => if b = 0x3a then some ⟨.value, scan.stack⟩ else none
      | _ => closeValue scan.stack b

def run (scan : Scan) (bytes : List UInt8) : Option Scan := bytes.foldlM step scan

/-- A whole value has been read. -/
def done (scan : Scan) : Bool :=
  scan.stack.isEmpty && (decide (scan.mode = .after) || decide (scan.mode = .token))

end Scan

/-- The bytes have the shape of one JSON text. -/
def JsonShape (bytes : List UInt8) : Bool := (Scan.run ⟨.value, []⟩ bytes).any Scan.done

/-! ## Reading -/

inductive JsonValue where
  | null
  | bool (b : Bool)
  | number (text : String)
  | string (value : String)
  | array (items : List JsonValue)
  | object (fields : List (String × JsonValue))

/-- A member of a flat object. -/
def flatValue : Option String → JsonValue
  | none => .null
  | some value => .string value

/-- `serde_json::from_str`: it reads nothing that is not one JSON text, and it reads back a flat
object whose keys are distinct. -/
class JsonReader where
  fromStr : String → Except String JsonValue
  shape : ∀ {text value}, fromStr text = .ok value → JsonShape (utf8 text)
  flat : ∀ fields : List (String × Option String), (fields.map Prod.fst).Nodup →
    ∃ object, fromStr (renderObject fields) = .ok (.object object) ∧
      object.length = fields.length ∧
      ∀ key, object.lookup key = (fields.lookup key).map flatValue

end Clearra.Lib
