import LineMigration.Table.Scan
import LineMigration.Table.Shipped
import LineMigration.Proofs.Text.Replace

/-!
# Applying a table

A table finds something in a line exactly if one of its keys occurs in the line as it was
(`apply_eq_none_iff`), and the line as it is written is every replacement in turn, without a look
at what occurs (`edited_cons`, `apply_iff_replacedInTurn`). With keys that have no line feed, a
text is edited on both sides of a line feed as if each side stood alone.
-/

namespace LineMigration.Table

variable {table : Table} {entry : Entry} {line : Text}

/-- No key, no line: whether something is found is decided by the line as it was. -/
theorem apply_eq_none_iff : table.apply line = none ↔ table.hasKeyIn line = false := by
  induction table with
  | nil => simp [hasKeyIn]
  | cons entry later ih =>
    rw [apply_cons]
    by_cases hkey : Text.occursIn entry.key line = true
    · simp [Entry.apply, hasKeyIn, hkey]
    · simpa [Entry.apply, hasKeyIn, hkey] using ih

/-- What is found is the line as it is written. -/
theorem apply_eq_some_iff {new : Text} :
    table.apply line = some new ↔ table.hasKeyIn line = true ∧ table.edited line = new := by
  cases happly : table.apply line with
  | none => simp [apply_eq_none_iff.1 happly]
  | some found =>
    have hkey : table.hasKeyIn line = true := by
      rw [← Bool.not_eq_false, ← apply_eq_none_iff, happly]
      exact Option.some_ne_none found
    simp [hkey, edited, happly]

/-- A key of the table is in the line exactly if the line can be split around it. -/
theorem hasKeyIn_iff : table.hasKeyIn line = true ↔ ∃ entry ∈ table, entry.key <:+: line := by
  simp [hasKeyIn, Text.occursIn_iff_isInfix]

theorem hasKeyIn_eq_false_iff :
    table.hasKeyIn line = false ↔ ∀ entry ∈ table, ¬ entry.key <:+: line := by
  simp [← Bool.not_eq_true, hasKeyIn_iff]

/-- Something is found exactly if a key occurs in the line as it was. -/
theorem exists_apply_iff :
    (∃ new, table.apply line = some new) ↔ ∃ entry ∈ table, entry.key <:+: line := by
  rw [← hasKeyIn_iff, ← Bool.not_eq_false, ← apply_eq_none_iff, ← Option.ne_none_iff_exists']

/-- Every entry replaces in its turn; one whose key does not occur leaves the line. -/
theorem edited_cons (later : Table) :
    edited (entry :: later) line = edited later (Text.replaceAll entry.key entry.text line) := by
  -- Where the key does not occur, replacing it gives the line back.
  simp only [edited, apply_cons, Entry.apply]
  split
  · next h =>
    split at h
    · cases h
    · next hkey =>
      rw [Text.replaceAll_of_not_occursIn (by simpa using hkey)]
  · next h =>
    split at h
    · cases h
      rfl
    · cases h

/-- One more entry at the end sees what the others made. -/
theorem edited_concat (table : Table) (entry : Entry) (line : Text) :
    edited (table ++ [entry]) line =
      Text.replaceAll entry.key entry.text (table.edited line) := by
  induction table generalizing line with
  | nil => rw [List.nil_append, edited_cons, edited_nil, edited_nil]
  | cons first later ih => rw [List.cons_append, edited_cons, edited_cons, ih]

/-- The line after all entries in table order, each of which replaces its key in what the one before
it made, whether the key is there or not. -/
def replacedInTurn (table : Table) (line : Text) : Text :=
  table.foldl (fun made entry ↦ Text.replaceAll entry.key entry.text made) line

/-- The line is written as if no entry looked for its key first. -/
theorem edited_eq_replacedInTurn (table : Table) (line : Text) :
    table.edited line = table.replacedInTurn line := by
  induction table generalizing line with
  | nil => rfl
  | cons entry later ih => rw [edited_cons, ih, replacedInTurn, replacedInTurn, List.foldl_cons]

/-- Nothing is found exactly if no key occurs in the line as it was, and otherwise what is found is
every replacement in turn. A key that only an earlier entry puts there does not count, and one that
occurs does, even if the entries behind restore the line. -/
theorem apply_iff_replacedInTurn (table : Table) (line : Text) :
    (table.apply line = none ↔ ∀ entry ∈ table, ¬ entry.key <:+: line) ∧
      ∀ new, table.apply line = some new ↔
        (∃ entry ∈ table, entry.key <:+: line) ∧ table.replacedInTurn line = new := by
  have hnone : table.apply line = none ↔ ∀ entry ∈ table, ¬ entry.key <:+: line :=
    apply_eq_none_iff.trans hasKeyIn_eq_false_iff
  refine ⟨hnone, fun new ↦ ?_⟩
  rw [apply_eq_some_iff, hasKeyIn_iff, edited_eq_replacedInTurn]

-- The second entry restores the line, which counts as changed all the same.
example : apply [.of "a" "b", .of "b" "a"] "a".toList = some "a".toList := by decide

/-- A table puts no character that none of its texts has. -/
theorem not_mem_edited {c : Char} (htexts : ∀ entry ∈ table, c ∉ entry.text) (hline : c ∉ line) :
    c ∉ table.edited line := by
  induction table generalizing line with
  | nil => exact hline
  | cons entry later ih =>
    rw [edited_cons]
    exact ih (fun other hother ↦ htexts other (List.mem_cons_of_mem _ hother))
      (Text.not_mem_replaceAll (htexts entry List.mem_cons_self) hline)

/-- No key of the table is empty or has a line feed in it. -/
def KeysWithinLines (table : Table) : Prop :=
  ∀ entry ∈ table, entry.key ≠ [] ∧ '\n' ∉ entry.key

instance (table : Table) : Decidable table.KeysWithinLines :=
  inferInstanceAs (Decidable (∀ entry ∈ table, _ ∧ _))

/-- The keys of the shipped table stay within a line. -/
theorem keysWithinLines_v3 : v3.KeysWithinLines := by
  unfold v3
  repeat rw [Entry.of_ofList]
  decide +kernel

/-- The texts of the shipped table have no line feed in them. -/
theorem lineFeed_not_mem_text_v3 : ∀ entry ∈ v3, '\n' ∉ entry.text := by
  unfold v3
  repeat rw [Entry.of_ofList]
  decide +kernel

/-- A text is edited on both sides of a line feed as if each side stood alone. -/
theorem edited_append_lineFeed (hkeys : table.KeysWithinLines) (before rest : Text) :
    table.edited (before ++ '\n' :: rest) = table.edited before ++ '\n' :: table.edited rest := by
  induction table generalizing before rest with
  | nil => rfl
  | cons entry later ih =>
    have hlater : KeysWithinLines later := fun other hother ↦
      hkeys other (List.mem_cons_of_mem _ hother)
    obtain ⟨hne, hfeed⟩ := hkeys entry List.mem_cons_self
    simp only [edited_cons, Text.replaceAll_append_cons hne hfeed, ih hlater]

/-- Nothing is made of nothing. -/
theorem edited_nil_of_keysWithinLines (hkeys : table.KeysWithinLines) : table.edited [] = [] := by
  induction table with
  | nil => rfl
  | cons entry later ih =>
    have hlater : KeysWithinLines later := fun other hother ↦
      hkeys other (List.mem_cons_of_mem _ hother)
    have hempty : entry.key.isEmpty = false := by
      simpa using (hkeys entry List.mem_cons_self).1
    rw [edited_cons]
    simpa [Text.replaceAll, hempty, Text.replaceFrom] using ih hlater

/-- A key of the table is before a line feed or behind it. -/
theorem hasKeyIn_append_lineFeed (hkeys : table.KeysWithinLines) (before rest : Text) :
    table.hasKeyIn (before ++ '\n' :: rest) = (table.hasKeyIn before || table.hasKeyIn rest) := by
  induction table with
  | nil => rfl
  | cons entry later ih =>
    have hfeed := (hkeys entry List.mem_cons_self).2
    have hrest := ih fun other hother ↦ hkeys other (List.mem_cons_of_mem _ hother)
    simp only [hasKeyIn, List.any_cons] at hrest ⊢
    rw [Text.occursIn_append_cons hfeed, hrest]
    ac_rfl

/-- No key that is not empty is in the empty text. -/
theorem hasKeyIn_nil_of_keysWithinLines (hkeys : table.KeysWithinLines) :
    table.hasKeyIn [] = false := by
  rw [hasKeyIn_eq_false_iff]
  intro entry hentry hinfix
  exact (hkeys entry hentry).1 (List.infix_nil.1 hinfix)

end LineMigration.Table
