import LineMigration.Json.Basic

/-!
# Writing JSON

One printer for two layouts: `Layout.compact` writes no space at all, and `Layout.indented` gives
every item of a filled array or object a line of its own, two spaces deeper than the line of the
bracket. A string escapes the quote, the backslash and the control characters below U+0020;
every other character stands for itself. A number is written in its parts.
-/

namespace LineMigration.Json

/-! ## Strings -/

/-- The lower-case hexadecimal digit of a number below 16. -/
def hexDigit (n : Nat) : Char := Nat.digitChar (n % 16)

/-- How a character stands inside quotes. -/
def escape (c : Char) : Text :=
  if c = '"' then ['\\', '"']
  else if c = '\\' then ['\\', '\\']
  else if c = '\x08' then ['\\', 'b']
  else if c = '\x0c' then ['\\', 'f']
  else if c = '\n' then ['\\', 'n']
  else if c = '\r' then ['\\', 'r']
  else if c = '\t' then ['\\', 't']
  else if c.toNat < 0x20 then
    ['\\', 'u', '0', '0', hexDigit (c.toNat / 16), hexDigit c.toNat]
  else [c]

/-- A string between its quotes. -/
def quoted (t : Text) : Text := '"' :: (t.flatMap escape ++ ['"'])

/-! ## Numbers -/

/-- The sign before the digits of an exponent. -/
def signText : ExponentSign → Text
  | .absent => []
  | .plus => ['+']
  | .minus => ['-']

/-- The point and the digits after it. -/
def fractionText : Option Digits → Text
  | none => []
  | some digits => '.' :: digits.text

/-- The letter, the sign and the digits of an exponent. -/
def exponentText : Option Exponent → Text
  | none => []
  | some exponent =>
    (if exponent.capital then 'E' else 'e') :: (signText exponent.sign ++ exponent.digits.text)

/-- The number without its sign. -/
def unsignedText (numeral : Numeral) : Text :=
  Text.decimal numeral.whole ++ (fractionText numeral.fraction ++ exponentText numeral.exponent)

/-- A number in its parts, after a minus sign if it is negative. -/
def numeralText (numeral : Numeral) : Text :=
  if numeral.negative then '-' :: unsignedText numeral else unsignedText numeral

/-! ## Layout -/

/-- What stands between the parts of arrays and objects. -/
structure Layout where
  /-- The break before an item or a closing bracket at a depth. -/
  lineBreak : Nat → Text
  /-- What follows the name of a field. -/
  colon : Text

/-- No spaces and no line breaks. -/
def Layout.compact : Layout := ⟨fun _ ↦ [], [':']⟩

/-- A line for each item, indented by two spaces for each level. -/
def Layout.indented : Layout := ⟨fun depth ↦ '\n' :: List.replicate (2 * depth) ' ', [':', ' ']⟩

mutual

/-- A value whose brackets stand at the given depth. -/
def print (layout : Layout) (depth : Nat) : Json → Text
  | .null => ['n', 'u', 'l', 'l']
  | .bool true => ['t', 'r', 'u', 'e']
  | .bool false => ['f', 'a', 'l', 's', 'e']
  | .number value => numeralText (.ofInt value)
  | .decimal value => numeralText value.toNumeral
  | .string value => quoted value
  | .array [] => ['[', ']']
  | .array (item :: items) =>
    '[' :: (layout.lineBreak (depth + 1) ++ print layout (depth + 1) item
      ++ printItems layout depth items)
  | .object [] => ['{', '}']
  | .object ((name, value) :: fields) =>
    '{' :: (layout.lineBreak (depth + 1) ++ quoted name ++ layout.colon
      ++ print layout (depth + 1) value ++ printFields layout depth fields)

/-- What follows an item of an array: the other items and the closing bracket. -/
def printItems (layout : Layout) (depth : Nat) : List Json → Text
  | [] => layout.lineBreak depth ++ [']']
  | item :: items =>
    ',' :: (layout.lineBreak (depth + 1) ++ print layout (depth + 1) item
      ++ printItems layout depth items)

/-- What follows a field of an object: the other fields and the closing bracket. -/
def printFields (layout : Layout) (depth : Nat) : List (Text × Json) → Text
  | [] => layout.lineBreak depth ++ ['}']
  | (name, value) :: fields =>
    ',' :: (layout.lineBreak (depth + 1) ++ quoted name ++ layout.colon
      ++ print layout (depth + 1) value ++ printFields layout depth fields)

end

/-- The value on one line without spaces. -/
def compact (value : Json) : Text := print .compact 0 value

/-- The value over indented lines, without a final line feed. -/
def pretty (value : Json) : Text := print .indented 0 value

end LineMigration.Json
