import Clearra.Lib.JsonReader

/-!
# A reader of flat objects

The writer's side of the contract in `JsonReader`: what `renderObject` writes has the shape of a JSON
text, and two different lists of members are written differently. So the contract can be met, by the
reader that accepts exactly what the writer writes.
-/

namespace Clearra.Lib

open List Bool

/-! ## Shape -/

namespace Scan

/-- A byte that stands for itself inside a string. -/
def plain (b : UInt8) : Bool := b != 0x22 && b != 0x5c && decide (0x20 ≤ b)

variable {stack : List Frame}

theorem run_plain {isKey : Bool} {bytes : List UInt8} (h : bytes.all plain = true) :
    run ⟨.string isKey, stack⟩ bytes = some ⟨.string isKey, stack⟩ := by
  induction bytes with
  | nil => rfl
  | cons b bytes ih =>
    simp only [all_cons, and_eq_true] at h
    have hb := h.1
    simp only [plain, and_eq_true, bne_iff_ne, ne_eq, decide_eq_true_eq] at hb
    have hstep : step ⟨.string isKey, stack⟩ b = some ⟨.string isKey, stack⟩ := by
      simp [step, hb.1.1, hb.1.2, hb.2]
    rw [run_cons, hstep]
    exact ih h.2

theorem plain_ofNat {n : Nat} (hquote : n ≠ 34) (hslash : n ≠ 92) (hcontrol : 32 ≤ n)
    (h : n < 256) : plain (UInt8.ofNat n) = true := by
  have hn : (UInt8.ofNat n).toNat = n := by simp [Nat.mod_eq_of_lt h]
  simp only [plain, and_eq_true, bne_iff_ne, ne_eq, decide_eq_true_eq, ← UInt8.toNat_inj,
    UInt8.le_iff_toNat_le, hn]
  exact ⟨⟨hquote, hslash⟩, hcontrol⟩

theorem plain_of_high {n : Nat} (h : 128 ≤ n) (h' : n < 256) : plain (UInt8.ofNat n) = true :=
  plain_ofNat (by omega) (by omega) (by omega) h'

theorem plain_utf8EncodeChar {c : Char} (hquote : c ≠ '"') (hslash : c ≠ '\\')
    (hcontrol : 32 ≤ c.toNat) : (String.utf8EncodeChar c).all plain = true := by
  unfold String.utf8EncodeChar
  have hval : c.val.toNat = c.toNat := rfl
  simp only [hval]
  split_ifs
  · simp only [all_cons, all_nil, Bool.and_true]
    exact plain_ofNat (fun h => hquote (Char.toNat_inj.1 h)) (fun h => hslash (Char.toNat_inj.1 h))
      hcontrol (by omega)
  all_goals
    simp only [all_cons, all_nil, Bool.and_true, and_eq_true]
    repeat' apply And.intro
  all_goals exact plain_of_high (by omega) (by omega)

theorem plain_controlHex : ∀ code < 32, (utf8 (controlHex code)).all plain = true := by decide

theorem run_escapeChar {isKey : Bool} (c : Char) :
    run ⟨.string isKey, stack⟩ (utf8 (escapeChar c)) = some ⟨.string isKey, stack⟩ := by
  unfold escapeChar
  split_ifs
  any_goals rfl
  case _ hcontrol =>
    rw [utf8_append, run_append]
    exact run_plain (plain_controlHex _ hcontrol)
  case _ hquote hslash _ _ _ _ _ hcontrol =>
    rw [utf8_singleton]
    exact run_plain (plain_utf8EncodeChar hquote hslash (by omega))

theorem run_string {isKey : Bool} (value : String) :
    run ⟨.string isKey, stack⟩ (utf8 (String.join (value.toList.map escapeChar) ++ "\"")) =
      some ⟨if isKey then .colon else .after, stack⟩ := by
  have hbody : ∀ chars : List Char, run ⟨.string isKey, stack⟩
      ((chars.map escapeChar).flatMap utf8) = some ⟨.string isKey, stack⟩ := by
    intro chars
    induction chars with
    | nil => rfl
    | cons c chars ih =>
      rw [map_cons, flatMap_cons, run_append, run_escapeChar]
      exact ih
  rw [utf8_append, utf8_join, run_append, hbody]
  cases isKey <;> rfl

theorem utf8_jsonString (value : String) : utf8 (jsonString value) =
    0x22 :: utf8 (String.join (value.toList.map escapeChar) ++ "\"") := by
  rw [jsonString, String.append_assoc, utf8_append]
  rfl

theorem run_key {scan : Scan} (hscan : scan = ⟨.firstKey, stack⟩ ∨ scan = ⟨.key, stack⟩)
    (key : String) : run scan (utf8 (jsonString key ++ ":")) = some ⟨.value, stack⟩ := by
  rw [utf8_append, utf8_jsonString, cons_append, run_cons]
  have hstep : step scan 0x22 = some ⟨.string true, stack⟩ := by
    cases hscan with
    | inl h => rw [h]; rfl
    | inr h => rw [h]; rfl
  rw [hstep]
  show run ⟨.string true, stack⟩ (_ ++ _) = _
  rw [run_append, run_string]
  rfl

/-- A flat value; a bare `null` may be followed by whatever may follow a value. -/
theorem run_flat (value : Option String) :
    ∃ mode, (mode = .after ∨ mode = .token) ∧
      run ⟨.value, stack⟩ (utf8 (optionalJsonString value)) = some ⟨mode, stack⟩ := by
  cases value with
  | none => exact ⟨.token, Or.inr rfl, rfl⟩
  | some value =>
    refine ⟨.after, Or.inl rfl, ?_⟩
    rw [optionalJsonString, utf8_jsonString, run_cons]
    show run ⟨.string false, stack⟩ _ = _
    rw [run_string]
    rfl

theorem run_members {scan : Scan} (hscan : scan = ⟨.firstKey, [.object]⟩ ∨ scan = ⟨.key, [.object]⟩)
    {fields : List (String × Option String)} (hfields : fields ≠ [] ∨ scan = ⟨.firstKey, [.object]⟩) :
    run scan (utf8 (renderMembers fields ++ "\x7d")) = some ⟨.after, []⟩ := by
  induction fields generalizing scan with
  | nil =>
    obtain rfl : scan = ⟨.firstKey, [.object]⟩ := by simpa using hfields
    rfl
  | cons field rest ih =>
    obtain ⟨key, value⟩ := field
    obtain ⟨mode, hmode, hvalue⟩ := @run_flat [.object] value
    cases rest with
    | nil =>
      rw [renderMembers, utf8_append, utf8_append, append_assoc, run_append, run_key hscan]
      show run ⟨.value, [.object]⟩ (_ ++ _) = _
      rw [run_append, hvalue]
      cases hmode with
      | inl h => rw [h]; rfl
      | inr h => rw [h]; rfl
    | cons next rest =>
      have hsplit : renderMembers ((key, value) :: next :: rest) ++ "\x7d" =
          jsonString key ++ ":" ++ (optionalJsonString value ++ ("," ++
            (renderMembers (next :: rest) ++ "\x7d"))) := by
        simp only [renderMembers, String.append_assoc]
      rw [hsplit, utf8_append, run_append, run_key hscan]
      show run ⟨.value, [.object]⟩ _ = _
      rw [utf8_append, run_append, hvalue]
      show run ⟨mode, [.object]⟩ _ = _
      rw [utf8_append, run_append]
      have hcomma : run ⟨mode, [.object]⟩ (utf8 ",") = some ⟨.key, [.object]⟩ := by
        cases hmode with
        | inl h => rw [h]; rfl
        | inr h => rw [h]; rfl
      rw [hcomma]
      exact ih (Or.inr rfl) (Or.inl (cons_ne_nil _ _))

end Scan

theorem jsonShape_renderObject (fields : List (String × Option String)) :
    JsonShape (utf8 (renderObject fields)) := by
  unfold JsonShape
  rw [renderObject, String.append_assoc, utf8_append, Scan.run_append]
  show Option.any _ (Scan.run ⟨.firstKey, [.object]⟩ _) = true
  rw [Scan.run_members (Or.inl rfl) (Or.inr rfl)]
  rfl

/-! ## One line -/

/-- Bytes that are no control characters. -/
def printable (b : UInt8) : Bool := decide (0x20 ≤ b)

theorem printable_of_plain {bytes : List UInt8} (h : bytes.all Scan.plain = true) :
    bytes.all printable = true := by
  rw [all_eq_true] at h ⊢
  intro b hb
  have := h b hb
  simp only [Scan.plain, and_eq_true] at this
  exact this.2

theorem printable_escapeChar (c : Char) : (utf8 (escapeChar c)).all printable = true := by
  unfold escapeChar
  split_ifs
  any_goals rfl
  case _ hcontrol =>
    rw [utf8_append, all_append, printable_of_plain (Scan.plain_controlHex _ hcontrol)]
    rfl
  case _ hquote hslash _ _ _ _ _ hcontrol =>
    rw [utf8_singleton]
    exact printable_of_plain (Scan.plain_utf8EncodeChar hquote hslash (by omega))

theorem printable_jsonString (value : String) : (utf8 (jsonString value)).all printable = true := by
  have hbody : (((value.toList.map escapeChar).flatMap utf8).all printable) = true := by
    simp only [all_eq_true, mem_flatMap, mem_map]
    rintro b ⟨_, ⟨c, -, rfl⟩, hb⟩
    exact all_eq_true.1 (printable_escapeChar c) b hb
  rw [jsonString, utf8_append, utf8_append, utf8_join, all_append, all_append, hbody]
  rfl

theorem printable_optionalJsonString (value : Option String) :
    (utf8 (optionalJsonString value)).all printable = true := by
  cases value with
  | none => rfl
  | some value => exact printable_jsonString value

theorem printable_renderMembers (fields : List (String × Option String)) :
    (utf8 (renderMembers fields)).all printable = true := by
  induction fields with
  | nil => rfl
  | cons field rest ih =>
    obtain ⟨key, value⟩ := field
    have hmember : (utf8 (jsonString key ++ ":" ++ optionalJsonString value)).all printable = true := by
      rw [utf8_append, utf8_append, all_append, all_append, printable_jsonString,
        printable_optionalJsonString]
      rfl
    cases rest with
    | nil => exact hmember
    | cons next rest =>
      rw [renderMembers, utf8_append, utf8_append, all_append, all_append, hmember, ih]
      · rfl
      · simp

theorem newline_not_mem_renderObject (fields : List (String × Option String)) :
    0x0a ∉ utf8 (renderObject fields) := by
  intro h
  rw [renderObject, utf8_append, utf8_append] at h
  have hall : (utf8 "\x7b" ++ utf8 (renderMembers fields) ++ utf8 "\x7d").all printable = true := by
    rw [all_append, all_append, printable_renderMembers]
    rfl
  exact absurd (all_eq_true.1 hall _ h) (by decide)

/-! ## One text, one object -/

/-- The value of a lower-case hexadecimal digit. -/
def hexValue (c : Char) : Nat := if c.isDigit then c.toNat - 48 else c.toNat - 87

/-- The character at the front of a string's contents, and what comes after it. -/
def unescape : List Char → Option (Char × List Char)
  | '\\' :: 'u' :: '0' :: '0' :: high :: low :: rest =>
    some (Char.ofNat (hexValue high * 16 + hexValue low), rest)
  | '\\' :: c :: rest =>
    if c = 'b' then some (Char.ofNat 8, rest)
    else if c = 't' then some (Char.ofNat 9, rest)
    else if c = 'n' then some (Char.ofNat 10, rest)
    else if c = 'f' then some (Char.ofNat 12, rest)
    else if c = 'r' then some (Char.ofNat 13, rest)
    else some (c, rest)
  | c :: rest => if c = '"' then none else some (c, rest)
  | [] => none

theorem hexValue_controlHex : ∀ code < 32,
    hexValue (Nat.digitChar (code / 16)) * 16 + hexValue (Nat.digitChar (code % 16)) = code := by
  decide

theorem unescape_escapeChar (c : Char) (rest : List Char) :
    unescape ((escapeChar c).toList ++ rest) = some (c, rest) := by
  have hchar : ∀ n, c.toNat = n → Char.ofNat n = c := by
    rintro n rfl
    exact Char.ofNat_toNat c
  unfold escapeChar
  split_ifs
  case _ h => rw [h]; rfl
  case _ h => rw [h]; rfl
  case _ h => rw [← hchar 8 h]; rfl
  case _ h => rw [← hchar 9 h]; rfl
  case _ h => rw [← hchar 10 h]; rfl
  case _ h => rw [← hchar 12 h]; rfl
  case _ h => rw [← hchar 13 h]; rfl
  case _ h =>
    simp only [String.toList_append, controlHex, String.toList_ofList]
    show some (Char.ofNat (hexValue _ * 16 + hexValue _), rest) = _
    rw [hexValue_controlHex _ h, hchar _ rfl]
  case _ hquote hslash _ _ _ _ _ _ =>
    rw [String.toList_singleton]
    show unescape (c :: rest) = _
    unfold unescape
    split
    case h_1 heq => cases heq; exact absurd rfl hslash
    case h_2 heq => cases heq; exact absurd rfl hslash
    case h_3 heq => cases heq; rw [if_neg hquote]
    case h_4 heq => cases heq

variable {x y : List Char}

theorem contents_inj {left right : List Char}
    (h : left.flatMap (fun c => (escapeChar c).toList) ++ '"' :: x =
      right.flatMap (fun c => (escapeChar c).toList) ++ '"' :: y) : left = right ∧ x = y := by
  induction left generalizing right with
  | nil =>
    cases right with
    | nil => exact ⟨rfl, (List.cons.inj h).2⟩
    | cons d right =>
      rw [flatMap_cons, append_assoc] at h
      have := congrArg unescape h
      rw [unescape_escapeChar] at this
      cases this
  | cons c left ih =>
    cases right with
    | nil =>
      rw [flatMap_cons, append_assoc] at h
      have := congrArg unescape h
      rw [unescape_escapeChar] at this
      cases this
    | cons d right =>
      rw [flatMap_cons, append_assoc, flatMap_cons, append_assoc] at h
      have hu := congrArg unescape h
      rw [unescape_escapeChar, unescape_escapeChar, Option.some.injEq, Prod.mk.injEq] at hu
      obtain ⟨rfl, htail⟩ := ih hu.2
      exact ⟨by rw [hu.1], htail⟩

theorem toList_jsonString (value : String) : (jsonString value).toList =
    '"' :: (value.toList.flatMap (fun c => (escapeChar c).toList) ++ ['"']) := by
  simp [jsonString, String.toList_join, flatMap_map]

theorem jsonString_inj {left right : String}
    (h : (jsonString left).toList ++ x = (jsonString right).toList ++ y) :
    left = right ∧ x = y := by
  simp only [toList_jsonString, cons_append, append_assoc, nil_append] at h
  obtain ⟨hl, hx⟩ := contents_inj (List.cons.inj h).2
  exact ⟨String.toList_inj.1 hl, hx⟩

theorem optionalJsonString_inj {left right : Option String}
    (h : (optionalJsonString left).toList ++ x = (optionalJsonString right).toList ++ y) :
    left = right ∧ x = y := by
  cases left with
  | none =>
    cases right with
    | none => exact ⟨rfl, append_cancel_left h⟩
    | some right =>
      rw [optionalJsonString, optionalJsonString, toList_jsonString] at h
      cases h
  | some left =>
    cases right with
    | none =>
      rw [optionalJsonString, optionalJsonString, toList_jsonString] at h
      cases h
    | some right =>
      obtain ⟨rfl, hx⟩ := jsonString_inj h
      exact ⟨rfl, hx⟩

/-- What follows a member: the end of the object, or a comma and more members. -/
def membersTail : List (String × Option String) → List Char
  | [] => ['}']
  | fields => ',' :: ((renderMembers fields).toList ++ ['}'])

theorem toList_members (key : String) (value : Option String)
    (rest : List (String × Option String)) :
    (renderMembers ((key, value) :: rest)).toList ++ ['}'] =
      (jsonString key).toList ++ (':' :: ((optionalJsonString value).toList ++ membersTail rest)) := by
  cases rest with
  | nil => simp [renderMembers, membersTail]
  | cons field rest => simp [renderMembers, membersTail]

theorem renderMembers_inj {left right : List (String × Option String)}
    (h : (renderMembers left).toList ++ ['}'] = (renderMembers right).toList ++ ['}']) :
    left = right := by
  induction left generalizing right with
  | nil =>
    cases right with
    | nil => rfl
    | cons field right =>
      rw [toList_members, toList_jsonString] at h
      cases h
  | cons field left ih =>
    obtain ⟨key, value⟩ := field
    cases right with
    | nil =>
      rw [toList_members, toList_jsonString] at h
      cases h
    | cons field' right =>
      obtain ⟨key', value'⟩ := field'
      rw [toList_members, toList_members] at h
      obtain ⟨rfl, hrest⟩ := jsonString_inj h
      obtain ⟨rfl, htail⟩ := optionalJsonString_inj (List.cons.inj hrest).2
      cases left with
      | nil =>
        cases right with
        | nil => rfl
        | cons field right => cases htail
      | cons field left =>
        cases right with
        | nil => cases htail
        | cons field' right =>
          rw [ih (List.cons.inj htail).2]

theorem renderObject_injective : Function.Injective renderObject := by
  intro left right h
  have := congrArg String.toList h
  simp only [renderObject, String.toList_append] at this
  rw [append_assoc, append_assoc] at this
  exact renderMembers_inj (append_cancel_left this)

/-- The members of a flat object, as values. -/
def flatObject (fields : List (String × Option String)) : List (String × JsonValue) :=
  fields.map fun field => (field.1, flatValue field.2)

theorem lookup_flatObject (fields : List (String × Option String)) (key : String) :
    (flatObject fields).lookup key = (fields.lookup key).map flatValue := by
  induction fields with
  | nil => rfl
  | cons field fields ih =>
    rw [flatObject, map_cons, lookup_cons, lookup_cons]
    cases key == field.1 with
    | true => rfl
    | false => exact ih

open Classical in
/-- Reading back what was written. -/
noncomputable def readFlat (text : String) : Except String JsonValue :=
  if h : ∃ fields, renderObject fields = text then .ok (.object (flatObject h.choose))
  else .error "expected value"

theorem readFlat_renderObject (fields : List (String × Option String)) :
    readFlat (renderObject fields) = .ok (.object (flatObject fields)) := by
  have hex : ∃ other, renderObject other = renderObject fields := ⟨fields, rfl⟩
  rw [readFlat, dif_pos hex, renderObject_injective hex.choose_spec]

/-- The reader that accepts what the writer writes and nothing else. -/
@[reducible] noncomputable def flatReader : JsonReader where
  fromStr := readFlat
  shape := by
    intro text value h
    unfold readFlat at h
    split_ifs at h with hfields
    obtain ⟨fields, rfl⟩ := hfields
    exact jsonShape_renderObject fields
  flat fields _ :=
    ⟨flatObject fields, readFlat_renderObject fields, by simp [flatObject], lookup_flatObject fields⟩

end Clearra.Lib
