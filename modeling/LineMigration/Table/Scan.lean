import LineMigration.Table.Basic

/-!
# One pass over a line

`Table.scan` looks at a line once from the left: where a key stands, the first entry of the table
with such a key gives its text and the key is passed over, and any other character is copied.
Applying the entries one after another can differ from that, as an entry sees what the ones
before it made; `Table.Delimited` describes lines in which every key stands apart from the
letters around it.
-/

namespace LineMigration

namespace Table

/-- The first entry whose key stands at the beginning of a text. -/
def firstAt? (table : Table) (text : Text) : Option Entry :=
  table.find? fun entry ↦ entry.key.isPrefixOf text

/-- The pass over the rest of a line: `skip` characters belong to a key that was found. Keys are
not empty. -/
def scanFrom (table : Table) : Nat → Text → Text
  | _, [] => []
  | skip + 1, _ :: rest => scanFrom table skip rest
  | 0, c :: rest =>
    match table.firstAt? (c :: rest) with
    | some entry => entry.text ++ scanFrom table (entry.key.length - 1) rest
    | none => c :: scanFrom table 0 rest

/-- The line after one pass from the left. -/
def scan (table : Table) (line : Text) : Text := scanFrom table 0 line

/-- Whether some key of the table occurs in a text. -/
def hasKeyIn (table : Table) (text : Text) : Bool :=
  table.any fun entry ↦ Text.occursIn entry.key text

/-- Whether a character is there and is an ASCII letter. -/
def isLetter? (c : Option Char) : Bool := c.any Char.isAlpha

/-- No letter stands before a key, and none after a key that ends in a letter. -/
def Delimited (table : Table) (line : Text) : Prop :=
  ∀ entry ∈ table, ∀ before after : Text, line = before ++ entry.key ++ after →
    isLetter? before.getLast? = false ∧
      (isLetter? entry.key.getLast? = true → isLetter? after.head? = false)

variable {table : Table} {entry : Entry} {text line : Text}

/-- Whether keys are delimited is seen at each place of a line. -/
theorem delimited_iff :
    table.Delimited line ↔ ∀ entry ∈ table, ∀ place < line.length + 1,
      entry.key <+: line.drop place →
        isLetter? (line.take place).getLast? = false ∧
          (isLetter? entry.key.getLast? = true →
            isLetter? (line.drop (place + entry.key.length)).head? = false) := by
  constructor
  · intro h entry hentry place hplace ⟨after, hafter⟩
    have hsplit : line = line.take place ++ entry.key ++ after := by
      rw [List.append_assoc, hafter, List.take_append_drop]
    have hdrop : line.drop (place + entry.key.length) = after := by
      rw [← List.drop_drop, ← hafter, List.drop_left]
    rw [hdrop]
    exact h entry hentry _ after hsplit
  · rintro h entry hentry before after rfl
    have hplace := h entry hentry before.length (by simp only [List.length_append]; omega)
    simpa [List.drop_left', List.drop_append] using hplace

instance (table : Table) (line : Text) : Decidable (table.Delimited line) :=
  decidable_of_iff _ delimited_iff.symm

/-! ## Keys at the beginning of a text -/

/-- The entry that is found is one of the table. -/
theorem mem_of_firstAt? (h : table.firstAt? text = some entry) : entry ∈ table :=
  List.mem_of_find?_eq_some h

/-- Its key stands at the beginning. -/
theorem isPrefix_of_firstAt? (h : table.firstAt? text = some entry) : entry.key <+: text := by
  have hfound := List.find?_some h
  exact List.isPrefixOf_iff_prefix.1 hfound

/-- Nothing is found where no key stands at the beginning. -/
theorem firstAt?_eq_none_iff :
    table.firstAt? text = none ↔ ∀ entry ∈ table, ¬ entry.key <+: text := by
  simp [firstAt?]

/-! ## The pass -/

/-- Passing over `skip` characters is dropping them. -/
theorem scanFrom_eq_drop (skip : Nat) (text : Text) :
    scanFrom table skip text = scanFrom table 0 (text.drop skip) := by
  induction text generalizing skip with
  | nil => simp [scanFrom]
  | cons c rest ih =>
    cases skip with
    | zero => rfl
    | succ skip => simp [scanFrom, ih skip]

@[simp] theorem scan_nil : table.scan [] = [] := rfl

/-- A character at which no key begins is copied. -/
theorem scan_cons {c : Char} {rest : Text} (h : table.firstAt? (c :: rest) = none) :
    table.scan (c :: rest) = c :: table.scan rest := by
  simp [scan, scanFrom, h]

/-- The key that is found gives its text, and the pass goes on behind it. -/
theorem scan_key_append {rest : Text} (hkey : entry.key ≠ [])
    (h : table.firstAt? (entry.key ++ rest) = some entry) :
    table.scan (entry.key ++ rest) = entry.text ++ table.scan rest := by
  cases hsplit : entry.key with
  | nil => exact absurd hsplit hkey
  | cons c key =>
    rw [hsplit, List.cons_append] at h
    simp [scan, scanFrom, h, hsplit, scanFrom_eq_drop key.length]

end Table

end LineMigration
