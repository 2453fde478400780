import Mathlib.Data.List.Basic
import LineMigration.Json.Printer
import LineMigration.Json.Reader

/-!
# Reading the parts of a document

What is written for a string or a number is read back, whatever follows it, if that cannot be taken
for more of the same: `readString_escape` for one character, `readString_flatMap_escape` for a
string up to its closing quote, and `readNumeral_text` for a number, from one law for each of its
parts. Spaces are passed over (`skipSpaces_append`).
-/

namespace LineMigration.Json

variable {c : Char} {t rest spaces : Text} {n : Nat}

/-! ## Spaces -/

/-- Spaces before a text are passed over. -/
theorem skipSpaces_append (h : ∀ c ∈ spaces, isSpace c = true) :
    skipSpaces (spaces ++ t) = skipSpaces t := by
  induction spaces with
  | nil => rfl
  | cons c spaces ih =>
    have hc : isSpace c = true := h c List.mem_cons_self
    have hspaces := ih fun asked hasked ↦ h asked (List.mem_cons_of_mem _ hasked)
    simpa [skipSpaces, List.dropWhile_cons, hc] using hspaces

@[simp] theorem skipSpaces_nil : skipSpaces [] = [] := rfl

/-- A text that does not begin with a space stays. -/
theorem skipSpaces_cons (h : isSpace c = false) : skipSpaces (c :: t) = c :: t := by
  simp [skipSpaces, h]

/-! ## Strings -/

/-- The two digits of a control character stand for its number. -/
theorem unit?_hexDigit : ∀ n < 0x20, unit? '0' '0' (hexDigit (n / 16)) (hexDigit n) = some n := by
  decide

/-- A character is written after a backslash, by its number, or as it is. -/
theorem escape_cases (c : Char) :
    (∃ letter, escape c = ['\\', letter] ∧ letter ≠ 'u' ∧ escaped? letter = some c) ∨
      (c.toNat < 0x20 ∧
        escape c = ['\\', 'u', '0', '0', hexDigit (c.toNat / 16), hexDigit c.toNat]) ∨
      (escape c = [c] ∧ c ≠ '"' ∧ c ≠ '\\' ∧ 0x20 ≤ c.toNat) := by
  unfold escape
  iterate 7
    split
    · next h =>
      subst h
      exact .inl ⟨_, rfl, by decide, rfl⟩
  split
  · next hcontrol => exact .inr (.inl ⟨hcontrol, rfl⟩)
  · next hquote hbackslash _ _ _ _ _ hcontrol =>
    exact .inr (.inr ⟨rfl, hquote, hbackslash, Nat.le_of_not_lt hcontrol⟩)

/-- A character is read as it is written. -/
theorem readString_escape (c : Char) (rest : Text) :
    readString (escape c ++ rest) =
      (readString rest).map fun (t, after) ↦ (c :: t, after) := by
  rcases escape_cases c with ⟨letter, hletter, hunit, hescaped⟩ | ⟨hcontrol, hunit⟩ |
    ⟨hself, hquote, hbackslash, hplain⟩
  · rw [hletter, List.cons_append, List.cons_append, List.nil_append, readString.eq_def]
    simp [hunit, hescaped]
  · -- The number is below those of surrogates.
    have hhigh : isHigh c.toNat = false := by simp [isHigh]; omega
    have hlow : isLow c.toNat = false := by simp [isLow]; omega
    simp [hunit, readString, unit?_hexDigit c.toNat hcontrol, hhigh, hlow]
  · have hlegal : ¬ (c = '\\' ∨ c.toNat < 0x20) := by simp [hbackslash]; omega
    rw [hself, List.singleton_append, readString.eq_def]
    split
    · next heq => cases heq
    · next heq =>
      cases heq
      exact absurd rfl hquote
    · next heq =>
      cases heq
      exact absurd rfl hbackslash
    · next heq =>
      cases heq
      exact absurd rfl hbackslash
    · next heq =>
      cases heq
      rw [if_neg hlegal]

/-- A string is read up to its closing quote. -/
theorem readString_flatMap_escape (t rest : Text) :
    readString (t.flatMap escape ++ '"' :: rest) = some (t, rest) := by
  induction t with
  | nil => rfl
  | cons c t ih => rw [List.flatMap_cons, List.append_assoc, readString_escape, ih]; rfl

/-! ## Digits -/

/-- What follows cannot be taken for more digits. -/
def EndsDigits (rest : Text) : Prop := ∀ c, rest.head? = some c → c.isDigit = false

/-- Digits are taken up to what follows them. -/
theorem span_digits {digits : Text} (hdigits : ∀ c ∈ digits, c.isDigit = true)
    (h : EndsDigits rest) :
    (digits ++ rest).takeWhile Char.isDigit = digits ∧
      (digits ++ rest).dropWhile Char.isDigit = rest := by
  have hrest : rest.takeWhile Char.isDigit = [] ∧ rest.dropWhile Char.isDigit = rest := by
    cases rest with
    | nil => exact ⟨rfl, rfl⟩
    | cons c rest => simp [h c rfl]
  rw [List.takeWhile_append_of_pos hdigits, List.dropWhile_append_of_pos hdigits, hrest.1,
    hrest.2, List.append_nil]
  exact ⟨rfl, rfl⟩

/-- Digits are read as they are written. -/
theorem readDigits_text (digits : Digits) (h : EndsDigits rest) :
    readDigits (digits.text ++ rest) = some (digits, rest) := by
  obtain ⟨htake, hdrop⟩ := span_digits (fun _ ↦ digits.isDigit_of_mem) h
  unfold readDigits
  simp [htake, hdrop, digits.ne_nil]

theorem isDigit_of_mem_decimal (h : c ∈ Text.decimal n) : c.isDigit = true :=
  Nat.isDigit_of_mem_toDigits (by decide) (by decide) h

/-- Only the number zero is written with a zero in front. -/
theorem head?_decimal (h : n ≠ 0) : (Text.decimal n).head? ≠ some '0' := by
  induction n using Nat.strongRecOn with
  | ind n ih =>
    unfold Text.decimal
    rw [Nat.toDigits_eq_if (by decide)]
    split
    · simpa using h
    · have hne : Nat.toDigits 10 (n / 10) ≠ [] := Nat.toDigits_ne_nil
      rw [List.head?_append_of_ne_nil _ hne]
      exact ih (n / 10) (by omega) (by omega)

/-- A whole number begins with a digit. -/
theorem exists_cons_decimal (n : Nat) :
    ∃ c others, Text.decimal n = c :: others ∧ c.isDigit = true := by
  cases hdecimal : Text.decimal n with
  | nil => exact absurd hdecimal Nat.toDigits_ne_nil
  | cons c others =>
    exact ⟨c, others, rfl, isDigit_of_mem_decimal (hdecimal ▸ List.mem_cons_self)⟩

/-- The digits of a whole number are read as that number. -/
theorem readNatural_decimal (n : Nat) (h : EndsDigits rest) :
    readNatural (Text.decimal n ++ rest) = some (n, rest) := by
  obtain ⟨htake, hdrop⟩ := span_digits (fun _ ↦ isDigit_of_mem_decimal (n := n)) h
  have hvalue : Nat.ofDigitChars 10 (Text.decimal n) 0 = n := Nat.ofDigitChars_ten_toDigits
  unfold readNatural
  rw [htake, hdrop]
  split
  · next hnil => exact absurd hnil Nat.toDigits_ne_nil
  · next hzero =>
    -- More digits after a zero would be those of another number than zero.
    have hn : n = 0 := by
      by_contra hne
      exact head?_decimal hne (by rw [hzero]; rfl)
    subst hn
    cases hzero
  · rw [hvalue]

/-! ## Numbers -/

/-- What follows cannot be taken for more of a number. -/
def EndsNumber (rest : Text) : Prop :=
  ∀ c, rest.head? = some c → c.isDigit = false ∧ c ≠ '.' ∧ c ≠ 'e' ∧ c ≠ 'E'

theorem EndsNumber.endsDigits (h : EndsNumber rest) : EndsDigits rest := fun c hc ↦ (h c hc).1

/-- The sign of an exponent is read as it is written before digits. -/
theorem readSign_text (sign : ExponentSign) (digits : Digits) :
    readSign (signText sign ++ (digits.text ++ rest)) = (sign, digits.text ++ rest) := by
  cases sign with
  | plus | minus => rfl
  | absent =>
    obtain ⟨c, others, htext⟩ := List.exists_cons_of_ne_nil digits.ne_nil
    have hdigit : c.isDigit = true := digits.isDigit_of_mem (htext ▸ List.mem_cons_self)
    show readSign (digits.text ++ rest) = _
    rw [htext, List.cons_append]
    unfold readSign
    split
    · next heq =>
      cases heq
      cases hdigit
    · next heq =>
      cases heq
      cases hdigit
    · rfl

/-- The exponent of a number is read as it is written. -/
theorem readExponent_text (exponent : Option Exponent) (h : EndsNumber rest) :
    readExponent (exponentText exponent ++ rest) = some (exponent, rest) := by
  cases exponent with
  | none =>
    cases rest with
    | nil => rfl
    | cons c rest =>
      obtain ⟨-, -, hsmall, hcapital⟩ := h c rfl
      simp [exponentText, readExponent, hsmall, hcapital]
  | some exponent =>
    obtain ⟨capital, sign, digits⟩ := exponent
    have hsign : readSign (signText sign ++ (digits.text ++ rest)) = _ := readSign_text sign digits
    cases capital <;>
      simp [exponentText, readExponent, hsign, readDigits_text digits h.endsDigits]

/-- What begins with the exponent of a number begins with neither a digit nor a point. -/
theorem head?_exponentText (exponent : Option Exponent) (h : EndsNumber rest) {c : Char}
    (hc : (exponentText exponent ++ rest).head? = some c) : c.isDigit = false ∧ c ≠ '.' := by
  cases exponent with
  | none => exact ⟨(h c hc).1, (h c hc).2.1⟩
  | some exponent =>
    obtain ⟨capital, sign, digits⟩ := exponent
    cases capital <;> cases hc <;> exact ⟨rfl, by simp⟩

/-- The fraction of a number is read as it is written before the exponent. -/
theorem readFraction_text (fraction : Option Digits) (exponent : Option Exponent)
    (h : EndsNumber rest) :
    readFraction (fractionText fraction ++ (exponentText exponent ++ rest)) =
      some (fraction, exponentText exponent ++ rest) := by
  cases fraction with
  | none =>
    show readFraction (exponentText exponent ++ rest) = _
    unfold readFraction
    split
    · next heq => exact absurd rfl (head?_exponentText exponent h (by rw [heq]; rfl)).2
    · rfl
  | some digits =>
    simp only [fractionText, List.cons_append, readFraction]
    rw [readDigits_text digits fun c hc ↦ (head?_exponentText exponent h hc).1]
    rfl

/-- After the whole part of a number comes no digit. -/
theorem endsDigits_fractionText (fraction : Option Digits) (exponent : Option Exponent)
    (h : EndsNumber rest) :
    EndsDigits (fractionText fraction ++ (exponentText exponent ++ rest)) := by
  cases fraction with
  | none => exact fun c hc ↦ (head?_exponentText exponent h hc).1
  | some digits =>
    intro c hc
    cases hc
    rfl

/-- A number begins with a digit or a minus sign. -/
theorem exists_cons_numeralText (numeral : Numeral) :
    ∃ c others, numeralText numeral = c :: others ∧ (c.isDigit = true ∨ c = '-') := by
  obtain ⟨c, others, hdecimal, hdigit⟩ := exists_cons_decimal numeral.whole
  unfold numeralText
  split
  · exact ⟨'-', _, rfl, .inr rfl⟩
  · exact ⟨c, _, by rw [unsignedText, hdecimal, List.cons_append], .inl hdigit⟩

/-- Only a negative number begins with a minus sign. -/
theorem readMinus_text (numeral : Numeral) :
    readMinus (numeralText numeral ++ rest) = (numeral.negative, unsignedText numeral ++ rest) := by
  unfold numeralText
  cases numeral.negative with
  | true => rfl
  | false =>
    obtain ⟨c, others, hdecimal, hdigit⟩ := exists_cons_decimal numeral.whole
    rw [if_neg Bool.false_ne_true, unsignedText, hdecimal, List.cons_append, List.cons_append]
    unfold readMinus
    split
    · next heq =>
      cases heq
      cases hdigit
    · rfl

/-- A number is read as it is written. -/
theorem readNumeral_text (numeral : Numeral) (h : EndsNumber rest) :
    readNumeral (numeralText numeral ++ rest) = some (numeral, rest) := by
  obtain ⟨negative, whole, fraction, exponent⟩ := numeral
  unfold readNumeral
  rw [readMinus_text]
  simp only [unsignedText, List.append_assoc]
  rw [readNatural_decimal whole (endsDigits_fractionText fraction exponent h)]
  simp only [readFraction_text fraction exponent h, readExponent_text exponent h, Option.map_some]

/-- The numeral of a whole number has it for its value. -/
@[simp] theorem ofNumeral_ofInt (value : Int) : ofNumeral (.ofInt value) = .number value := by
  have hvalue : (Numeral.ofInt value).toInt = value := by
    simp only [Numeral.toInt, Numeral.ofInt, decide_eq_true_eq]
    split <;> omega
  rw [ofNumeral, dif_neg (by simp [Numeral.isWhole, Numeral.ofInt]), hvalue]

/-- The numeral of a decimal has it for its value. -/
@[simp] theorem ofNumeral_toNumeral (value : Decimal) :
    ofNumeral value.toNumeral = .decimal value := by
  rw [ofNumeral, dif_pos value.scaled]

end LineMigration.Json
