import LineMigration.Text.Replace

/-!
# Replacement tables

A table is an ordered list of entries, each a key with the text that takes its place. Entries
are applied one after another, and each sees what the entries before it made; order is the only
precedence. `Table.apply` gives nothing when no key was found, so that a line can be kept as it
is, and `Table.edited` is the line as it is written.

`apply_nil` and `apply_cons` give the rule entry by entry.
-/

namespace LineMigration

/-- One replacement: wherever `key` occurs, `text` takes its place. -/
structure Entry where
  key : Text
  text : Text
  deriving DecidableEq

/-- An entry from two literals. -/
def Entry.of (key text : String) : Entry := ⟨key.toList, text.toList⟩

/-- A literal is written as the list of its characters. -/
theorem Entry.of_ofList (key text : Text) :
    Entry.of (String.ofList key) (String.ofList text) = ⟨key, text⟩ := by
  simp [Entry.of]

/-- The text after one entry, or nothing where its key does not occur. -/
def Entry.apply (entry : Entry) (text : Text) : Option Text :=
  if Text.occursIn entry.key text then some (Text.replaceAll entry.key entry.text text) else none

/-- Entries in the order of their application. -/
abbrev Table := List Entry

namespace Table

/-- What is made of a line, after one more entry: the entry sees what the ones before it made, and
the line itself as long as none found its key. -/
def step (line : Text) (made : Option Text) (entry : Entry) : Option Text :=
  match entry.apply (made.getD line) with
  | some changed => some changed
  | none => made

/-- The line after every entry in order, or nothing where no entry found its key. An entry that
finds its key gives a line even if that line equals the one before. -/
def apply (table : Table) (line : Text) : Option Text := table.foldl (step line) none

/-- The line as it is written: changed where a key was found, else as it was. -/
def edited (table : Table) (line : Text) : Text := (table.apply line).getD line

@[simp] theorem apply_nil (line : Text) : apply [] line = none := rfl

@[simp] theorem edited_nil (line : Text) : edited [] line = line := rfl

/-- Once a key was found, the entries behind edit what was made, and the line is not looked at
again. -/
theorem foldl_step_some (later : Table) (line changed : Text) :
    later.foldl (step line) (some changed) = some (edited later changed) := by
  induction later generalizing line changed with
  | nil => rfl
  | cons entry later ih =>
    cases hentry : entry.apply changed with
    | none => simpa [step, hentry, edited, apply] using ih line changed
    | some new => simp [step, hentry, edited, apply, ih]

/-- The first entry goes first, and the others see its result. -/
theorem apply_cons (entry : Entry) (later : Table) (line : Text) :
    apply (entry :: later) line =
      match entry.apply line with
      | none => apply later line
      | some changed => some (edited later changed) := by
  cases hentry : entry.apply line with
  | none => simp [apply, step, hentry]
  | some changed => simp [apply, step, hentry, foldl_step_some]

/-- Without a key in it a line is written as it was. -/
theorem edited_of_apply_eq_none {table : Table} {line : Text} (h : table.apply line = none) :
    table.edited line = line := by
  simp [edited, h]

end Table

end LineMigration
