import LineMigration.Json.Basic

/-!
# Reading JSON

A strict reader of JSON documents: no comments, no trailing commas, no leading zeros, digits on
both sides of a point, no bare control characters in strings, and nothing after the value but
spaces. Surrogates are read in pairs only. A number is read in its parts, so none of its digits is
lost. Fields come in the order of the text. `read` is the reader of a document; the functions
before it read the beginning of a text and give what follows.
-/

namespace LineMigration.Json

/-- The characters that may stand between the parts of a document. -/
def isSpace (c : Char) : Bool := c = ' ' || c = '\t' || c = '\n' || c = '\r'

/-- The text from the first character that is no space. -/
def skipSpaces (t : Text) : Text := t.dropWhile isSpace

/-! ## Strings -/

/-- The value of a hexadecimal digit. -/
def hexValue? (c : Char) : Option Nat :=
  if '0' ≤ c ∧ c ≤ '9' then some (c.toNat - '0'.toNat)
  else if 'a' ≤ c ∧ c ≤ 'f' then some (c.toNat - 'a'.toNat + 10)
  else if 'A' ≤ c ∧ c ≤ 'F' then some (c.toNat - 'A'.toNat + 10)
  else none

/-- The value of four hexadecimal digits. -/
def unit? (a b c d : Char) : Option Nat := do
  let high := (← hexValue? a) * 16 + (← hexValue? b)
  let low := (← hexValue? c) * 16 + (← hexValue? d)
  return high * 256 + low

/-- What a backslash and a letter stand for. -/
def escaped? : Char → Option Char
  | '"' => some '"'
  | '\\' => some '\\'
  | '/' => some '/'
  | 'b' => some '\x08'
  | 'f' => some '\x0c'
  | 'n' => some '\n'
  | 'r' => some '\r'
  | 't' => some '\t'
  | _ => none

/-- Whether a unit opens a pair of surrogates. -/
def isHigh (unit : Nat) : Bool := 0xD800 ≤ unit && unit < 0xDC00

/-- Whether a unit closes a pair of surrogates. -/
def isLow (unit : Nat) : Bool := 0xDC00 ≤ unit && unit < 0xE000

/-- The character of a pair of surrogates. -/
def ofPair (high low : Nat) : Char :=
  Char.ofNat (0x10000 + (high - 0xD800) * 0x400 + (low - 0xDC00))

/-- The string up to its closing quote, and what follows. -/
def readString : Text → Option (Text × Text)
  | [] => none
  | '"' :: rest => some ([], rest)
  | '\\' :: 'u' :: a :: b :: c :: d :: rest =>
    match unit? a b c d with
    | none => none
    | some unit =>
      if isHigh unit then
        match rest with
        | '\\' :: 'u' :: e :: f :: g :: h :: others =>
          match unit? e f g h with
          | none => none
          | some second =>
            if isLow second then
              (readString others).map fun (t, after) ↦ (ofPair unit second :: t, after)
            else none
        | _ => none
      else if isLow unit then none
      else (readString rest).map fun (t, after) ↦ (Char.ofNat unit :: t, after)
  | '\\' :: letter :: rest =>
    match escaped? letter with
    | some c => (readString rest).map fun (t, after) ↦ (c :: t, after)
    | none => none
  | c :: rest =>
    if c = '\\' ∨ c.toNat < 0x20 then none
    else (readString rest).map fun (t, after) ↦ (c :: t, after)

/-! ## Numbers -/

/-- The minus sign, if there is one, and what follows. -/
def readMinus : Text → Bool × Text
  | '-' :: rest => (true, rest)
  | t => (false, t)

/-- The digits at the beginning, if they are those of a whole number, and what follows. -/
def readNatural (t : Text) : Option (Nat × Text) :=
  match t.takeWhile Char.isDigit with
  | [] => none
  | '0' :: _ :: _ => none
  | digits => some (Nat.ofDigitChars 10 digits 0, t.dropWhile Char.isDigit)

/-- The digits at the beginning, of which there has to be one, and what follows. -/
def readDigits (t : Text) : Option (Digits × Text) :=
  if h : t.takeWhile Char.isDigit = [] then none
  else some (⟨t.takeWhile Char.isDigit, h, List.all_takeWhile⟩, t.dropWhile Char.isDigit)

/-- The fraction, if there is a point, and what follows. -/
def readFraction : Text → Option (Option Digits × Text)
  | '.' :: rest => (readDigits rest).map fun (digits, after) ↦ (some digits, after)
  | t => some (none, t)

/-- The sign of an exponent, and what follows. -/
def readSign : Text → ExponentSign × Text
  | '+' :: rest => (.plus, rest)
  | '-' :: rest => (.minus, rest)
  | t => (.absent, t)

/-- The exponent, if its letter is there, and what follows. -/
def readExponent : Text → Option (Option Exponent × Text)
  | [] => some (none, [])
  | c :: rest =>
    if c = 'e' ∨ c = 'E' then
      (readDigits (readSign rest).2).map fun (digits, after) ↦
        (some ⟨c = 'E', (readSign rest).1, digits⟩, after)
    else some (none, c :: rest)

/-- The number at the beginning, and what follows. -/
def readNumeral (t : Text) : Option (Numeral × Text) :=
  match readNatural (readMinus t).2 with
  | none => none
  | some (whole, afterWhole) =>
    match readFraction afterWhole with
    | none => none
    | some (fraction, afterFraction) =>
      (readExponent afterFraction).map fun (exponent, rest) ↦
        (⟨(readMinus t).1, whole, fraction, exponent⟩, rest)

/-! ## Values -/

mutual

/-- The value at the beginning, and what follows; `fuel` bounds the depth and the length. -/
def readValue : Nat → Text → Option (Json × Text)
  | 0, _ => none
  | _ + 1, 'n' :: 'u' :: 'l' :: 'l' :: rest => some (.null, rest)
  | _ + 1, 't' :: 'r' :: 'u' :: 'e' :: rest => some (.bool true, rest)
  | _ + 1, 'f' :: 'a' :: 'l' :: 's' :: 'e' :: rest => some (.bool false, rest)
  | _ + 1, '"' :: rest => (readString rest).map fun (t, after) ↦ (.string t, after)
  | fuel + 1, '[' :: rest =>
    match skipSpaces rest with
    | ']' :: after => some (.array [], after)
    | items => (readItems fuel items).map fun (values, after) ↦ (.array values, after)
  | fuel + 1, '{' :: rest =>
    match skipSpaces rest with
    | '}' :: after => some (.object [], after)
    | fields => (readFields fuel fields).map fun (values, after) ↦ (.object values, after)
  | _ + 1, t => (readNumeral t).map fun (numeral, after) ↦ (ofNumeral numeral, after)

/-- The items of an array from the first one to the closing bracket, and what follows. -/
def readItems : Nat → Text → Option (List Json × Text)
  | 0, _ => none
  | fuel + 1, t =>
    match readValue fuel t with
    | none => none
    | some (value, rest) =>
      match skipSpaces rest with
      | ']' :: after => some ([value], after)
      | ',' :: more =>
        (readItems fuel (skipSpaces more)).map fun (values, after) ↦ (value :: values, after)
      | _ => none

/-- The fields of an object from the first one to the closing bracket, and what follows. -/
def readFields : Nat → Text → Option (List (Text × Json) × Text)
  | 0, _ => none
  | fuel + 1, t =>
    match t with
    | '"' :: quoted =>
      match readString quoted with
      | none => none
      | some (name, afterName) =>
        match skipSpaces afterName with
        | ':' :: rest =>
          match readValue fuel (skipSpaces rest) with
          | none => none
          | some (value, afterValue) =>
            match skipSpaces afterValue with
            | '}' :: after => some ([(name, value)], after)
            | ',' :: more =>
              (readFields fuel (skipSpaces more)).map fun (values, after) ↦
                ((name, value) :: values, after)
            | _ => none
        | _ => none
    | _ => none

end

/-- The value of a document, or nothing where the text is no document. -/
def read (document : Text) : Option Json :=
  match readValue (document.length + 1) (skipSpaces document) with
  | some (value, rest) => if (skipSpaces rest).isEmpty then some value else none
  | none => none

end LineMigration.Json
