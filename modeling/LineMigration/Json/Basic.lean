import LineMigration.Text.Basic

/-!
# JSON values

A number is whole, or it is a decimal, which is kept in the parts in which it is written: that is
how a number that is not whole is told, by one numeral with a fraction or an exponent, and two
numbers that differ are told by two numerals. An object is the list of its fields in the order in
which they are written; `Json.record` builds one in which every name occurs once and the names
ascend, which is the form of all data and details. Code points and UTF-8 octets order names alike.
-/

namespace LineMigration

/-! ## Numerals -/

/-- One decimal digit or more. -/
structure Digits where
  text : Text
  ne_nil : text ≠ []
  all_isDigit : text.all Char.isDigit = true
  deriving DecidableEq

theorem Digits.isDigit_of_mem (digits : Digits) {c : Char} (h : c ∈ digits.text) :
    c.isDigit = true :=
  List.all_eq_true.1 digits.all_isDigit c h

/-- What stands before the digits of an exponent. -/
inductive ExponentSign where
  | absent
  | plus
  | minus
  deriving DecidableEq

/-- The exponent of a number as it is written. -/
structure Exponent where
  /-- The letter is `E`, not `e`. -/
  capital : Bool
  sign : ExponentSign
  digits : Digits
  deriving DecidableEq

/-- A number in the parts in which it is written. -/
structure Numeral where
  negative : Bool
  whole : Nat
  /-- The digits after the point, if there is one. -/
  fraction : Option Digits
  exponent : Option Exponent
  deriving DecidableEq

namespace Numeral

/-- Whether there is neither a fraction nor an exponent. -/
def isWhole (numeral : Numeral) : Bool := numeral.fraction.isNone && numeral.exponent.isNone

/-- The numeral of a whole number. -/
def ofInt (value : Int) : Numeral := ⟨value < 0, value.natAbs, none, none⟩

/-- The whole number that is written before fraction and exponent. -/
def toInt (numeral : Numeral) : Int :=
  if numeral.negative then -numeral.whole else numeral.whole

end Numeral

/-- A number that is written with a fraction or an exponent. -/
structure Decimal extends Numeral where
  scaled : toNumeral.isWhole = false
  deriving DecidableEq

/-! ## Values -/

/-- A JSON value. -/
inductive Json where
  | null
  | bool (value : Bool)
  /-- A whole number. -/
  | number (value : Int)
  | decimal (value : Decimal)
  | string (value : Text)
  | array (items : List Json)
  | object (fields : List (Text × Json))
  deriving Inhabited

namespace Json

/-- A field at the place of its name; a field of the same name gives way. -/
def insertField (name : Text) (value : Json) : List (Text × Json) → List (Text × Json)
  | [] => [(name, value)]
  | (other, kept) :: rest =>
    if name = other then (name, value) :: rest
    else if name < other then (name, value) :: (other, kept) :: rest
    else (other, kept) :: insertField name value rest

/-- The object with ascending names. Of two fields with one name the later is kept. -/
def record (fields : List (Text × Json)) : Json :=
  .object (fields.foldl (fun sorted (name, value) ↦ insertField name value sorted) [])

/-- A literal as a value. -/
def literal (words : String) : Json := .string words.toList

/-- A count as a value. -/
def count (n : Nat) : Json := .number n

/-- The value of a numeral. -/
def ofNumeral (numeral : Numeral) : Json :=
  if h : numeral.isWhole = false then .decimal ⟨numeral, h⟩ else .number numeral.toInt

end Json

end LineMigration
