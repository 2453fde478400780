import LineMigration.Text.Basic

/-!
# Occurrence and replacement

`occursIn` asks whether a key stands somewhere in a text, and `replaceAll` puts a new text for
every occurrence, from the left and without overlap. The empty key stands before every character
and at the end. Main statements: `occursIn_iff_isInfix`, and `replaceAll_of_not_occursIn`, which
leaves a text without the key as it is.
-/

namespace LineMigration.Text

/-- Whether `key` is a contiguous part of the text. -/
def occursIn (key : Text) : Text → Bool
  | [] => key.isEmpty
  | c :: rest => key.isPrefixOf (c :: rest) || occursIn key rest

/-- The scan for a key that is not empty: `skip` characters belong to an occurrence that was
replaced and are passed over, the others are copied unless the key stands here. -/
def replaceFrom (key new : Text) : Nat → Text → Text
  | _, [] => []
  | skip + 1, _ :: rest => replaceFrom key new skip rest
  | 0, c :: rest =>
    if key.isPrefixOf (c :: rest) then new ++ replaceFrom key new (key.length - 1) rest
    else c :: replaceFrom key new 0 rest

/-- The text with `new` for every occurrence of `key`, from the left and without overlap. -/
def replaceAll (key new text : Text) : Text :=
  if key.isEmpty then new ++ text.flatMap fun c ↦ c :: new else replaceFrom key new 0 text

/-! ## Occurrence -/

/-- A key occurs where the text can be split around it. -/
theorem occursIn_iff_isInfix {key text : Text} : occursIn key text = true ↔ key <:+: text := by
  induction text with
  | nil => simp [occursIn, List.infix_nil]
  | cons c rest ih =>
    simp [occursIn, ih, List.infix_cons_iff, List.isPrefixOf_iff_prefix]

/-- The empty key occurs in every text. -/
@[simp] theorem occursIn_empty (text : Text) : occursIn [] text = true :=
  occursIn_iff_isInfix.2 List.nil_infix

/-! ## Replacement -/

/-- Passing over `skip` characters is dropping them. -/
theorem replaceFrom_eq_drop (key new : Text) (skip : Nat) (text : Text) :
    replaceFrom key new skip text = replaceFrom key new 0 (text.drop skip) := by
  induction text generalizing skip with
  | nil => simp [replaceFrom]
  | cons c rest ih =>
    cases skip with
    | zero => rfl
    | succ skip => simp [replaceFrom, ih skip]

/-- A text without the key is left as it is. -/
theorem replaceAll_of_not_occursIn {key new text : Text} (h : occursIn key text = false) :
    replaceAll key new text = text := by
  have hkey : key.isEmpty = false := by
    cases key with
    | nil => simp at h
    | cons => rfl
  simp only [replaceAll, hkey]
  induction text with
  | nil => rfl
  | cons c rest ih =>
    simp only [occursIn, Bool.or_eq_false_iff] at h
    simpa [replaceFrom, h.1] using ih h.2

end LineMigration.Text
