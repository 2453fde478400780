import LineMigration.Output
import LineMigration.Proofs.Json.Parts
import LineMigration.Proofs.Stream.Delivery
import LineMigration.Proofs.Stream.Replay

/-!
# Reading the log back

Nothing is escaped in the log, so a text in it may look like a line of the log itself. But where no
text has a line feed, a change takes three lines, of which the third is empty, and the log can be
read by its lines: `readLog_flatMap_text` gets back the changes that were printed. What a run tells
is of this kind (`isOneLined_of_mem_changes`): a line that is read has a line feed at its end only,
which its body leaves out, and a table without line feeds in its texts puts none there.
-/

namespace LineMigration

variable {change : Change} {changes : List Change} {label line text : Text}

/-- Neither text of the change has a line feed in it. -/
def Change.IsOneLined (change : Change) : Prop := '\n' ∉ change.old ∧ '\n' ∉ change.new

instance (change : Change) : Decidable change.IsOneLined := inferInstanceAs (Decidable (_ ∧ _))

/-! ## The reader -/

/-- A line of the log, without its line feed: the number of a line, and after a label a text. -/
def toldLine (label : Text) (number : Nat) (text : Text) : Text :=
  "line ".toList ++ (Text.decimal number ++ (label ++ text))

/-- The number in a line of the log, and the text after the label. -/
def readTold (label line : Text) : Option (Nat × Text) := do
  let numbered ← line.dropPrefix? "line ".toList
  let (number, labelled) ← Json.readNatural numbered
  let text ← labelled.dropPrefix? label
  some (number, text)

/-- The changes in the lines of a log, three for each. -/
def readBlocks : List Text → Option (List Change)
  | [] => some []
  | oldLine :: newLine :: ['\n'] :: rest => do
    let (number, old) ← readTold " old: ".toList oldLine.dropLast
    let (_, new) ← readTold " new: ".toList newLine.dropLast
    let changes ← readBlocks rest
    some (⟨number, old, new⟩ :: changes)
  | _ => none

/-- The changes that a log tells. -/
def readLog (log : Text) : Option (List Change) := readBlocks (Text.lines log)

/-- The block for a change has two lines and an empty one. -/
theorem Change.text_eq (change : Change) :
    change.text = toldLine " old: ".toList change.line change.old ++ '\n' ::
      (toldLine " new: ".toList change.line change.new ++ '\n' :: ['\n']) := by
  have hbetween : "\nline ".toList = '\n' :: "line ".toList := rfl
  have hend : "\n\n".toList = ['\n', '\n'] := rfl
  unfold Change.text toldLine
  rw [hbetween, hend]
  dsimp only
  generalize Text.decimal change.line = digits
  simp only [List.append_assoc, List.cons_append]

/-- A line of the log is read as it was written, if its label cannot be taken for digits. -/
theorem readTold_toldLine (number : Nat) (hlabel : Json.EndsDigits (label ++ text)) :
    readTold label (toldLine label number text) = some (number, text) := by
  have hnumbered : (toldLine label number text).dropPrefix? "line ".toList =
      some (Text.decimal number ++ (label ++ text)) :=
    List.dropPrefix?_append_of_beq _ (beq_self_eq_true _)
  have htext : (label ++ text).dropPrefix? label = some text :=
    List.dropPrefix?_append_of_beq text (beq_self_eq_true label)
  rw [readTold, hnumbered, Option.bind_eq_bind, Option.bind_some,
    Json.readNatural_decimal number hlabel]
  simp only [Option.bind_eq_bind, Option.bind_some, htext]

/-- A line of the log has no line feed but those of its text. -/
theorem lineFeed_not_mem_toldLine (number : Nat) (hlabel : '\n' ∉ label) (htext : '\n' ∉ text) :
    '\n' ∉ toldLine label number text := by
  have hdigits : '\n' ∉ Text.decimal number := by
    intro hmem
    have hdigit := Json.isDigit_of_mem_decimal hmem
    cases hdigit
  have hword : '\n' ∉ "line ".toList := by decide
  unfold toldLine
  generalize Text.decimal number = digits at hdigits ⊢
  simp only [List.mem_append, not_or]
  exact ⟨hword, hdigits, hlabel, htext⟩

/-- The lines of a block, and those behind it. -/
theorem lines_text_append (h : change.IsOneLined) (rest : Text) :
    Text.lines (change.text ++ rest) =
      (toldLine " old: ".toList change.line change.old ++ ['\n']) ::
        (toldLine " new: ".toList change.line change.new ++ ['\n']) :: ['\n'] ::
          Text.lines rest := by
  have hold : '\n' ∉ toldLine " old: ".toList change.line change.old :=
    lineFeed_not_mem_toldLine _ (by decide) h.1
  have hnew : '\n' ∉ toldLine " new: ".toList change.line change.new :=
    lineFeed_not_mem_toldLine _ (by decide) h.2
  have hempty : Text.lines (['\n'] ++ rest) = ['\n'] :: Text.lines rest :=
    Text.lines_append_lineFeed List.not_mem_nil rest
  rw [Change.text_eq, List.append_assoc, List.cons_append, List.append_assoc,
    Text.lines_append_lineFeed hold, List.cons_append, Text.lines_append_lineFeed hnew, hempty]

/-- A log is read block by block. -/
theorem readLog_text_append (h : change.IsOneLined) (rest : Text) :
    readLog (change.text ++ rest) = (readLog rest).map (change :: ·) := by
  have hold : Json.EndsDigits (" old: ".toList ++ change.old) := by
    rintro c ⟨⟩
    decide
  have hnew : Json.EndsDigits (" new: ".toList ++ change.new) := by
    rintro c ⟨⟩
    decide
  rw [readLog, lines_text_append h, readBlocks, List.dropLast_concat, List.dropLast_concat,
    readTold_toldLine _ hold, readTold_toldLine _ hnew]
  simp only [Option.bind_eq_bind, Option.bind_some]
  cases hrest : readBlocks (Text.lines rest) <;> simp [readLog, hrest]

/-- The log of changes is read as those changes. -/
theorem readLog_flatMap_text (h : ∀ change ∈ changes, change.IsOneLined) :
    readLog (changes.flatMap Change.text) = some changes := by
  induction changes with
  | nil => rfl
  | cons change changes ih =>
    have hrest := ih fun other hother ↦ h other (List.mem_cons_of_mem _ hother)
    rw [List.flatMap_cons, readLog_text_append (h change List.mem_cons_self), hrest]
    rfl

-- Texts that look like lines of the log, are empty or end in a carriage return.
example :
    let told : List Change :=
      [⟨12, "line 3 new: a".toList, []⟩, ⟨3, "a\r".toList, "line 12 old: ".toList⟩]
    readLog (told.flatMap Change.text) = some told := by decide +kernel

/-! ## What a run tells -/

namespace Stream

variable {σ : Type} [Writer σ] {table : Table}

/-- The change of a line that has a line feed at its end only has none. -/
theorem isOneLined_changeOf (htable : table.KeepsEndings)
    (htexts : ∀ entry ∈ table, '\n' ∉ entry.text) (number : Nat) {line new : Text}
    (hline : '\n' ∉ line.dropLast) (happly : table.apply line = some new) :
    (changeOf number line new).IsOneLined := by
  have hbody : '\n' ∉ Text.body line := Text.lineFeed_not_mem_body hline
  obtain ⟨-, rfl⟩ := Table.apply_eq_some_iff.1 happly
  refine ⟨hbody, ?_⟩
  show '\n' ∉ Text.body (table.edited line)
  rw [Table.body_edited htable]
  exact Table.not_mem_edited htexts hbody

/-- However a run ends, the texts of the changes that it told have no line feed. -/
theorem isOneLined_of_mem_changes (htable : table.KeepsEndings)
    (htexts : ∀ entry ∈ table, '\n' ∉ entry.text) (observer : Observer) (reader : Reader)
    (start : σ) (hchange : change ∈ (editAll table observer reader start).changes) :
    change.IsOneLined := by
  have hstopped : Stopped table observer start reader.lines (editAll table observer reader start) :=
    editAll_stopped reader
  obtain ⟨read, rest, hlines, hchanges⟩ := hstopped.exists_read
  rw [hchanges] at hchange
  obtain ⟨number, line, new, hline, happly, rfl⟩ := mem_changesFrom_iff.1 hchange
  have hmem : .ok line ∈ reader.lines := by
    rw [hlines]
    exact List.mem_append_left _ (List.mem_map_of_mem (List.mem_of_getElem? hline))
  exact isOneLined_changeOf htable htexts _ (Reader.lineFeed_not_mem_dropLast_of_mem_lines hmem)
    happly

/-- Two sequences of changes without line feeds in their texts that print the same log are the
same; and what a run with the shipped table tells is such a sequence, whatever it reads and however
it ends. -/
theorem log_injective :
    (∀ changes others : List Change, (∀ change ∈ changes, change.IsOneLined) →
      (∀ change ∈ others, change.IsOneLined) →
      changes.flatMap Change.text = others.flatMap Change.text → changes = others) ∧
    ∀ (observer : Observer) (reader : Reader) (start : σ),
      ∀ change ∈ (editAll .v3 observer reader start).changes, change.IsOneLined := by
  refine ⟨?_, ?_⟩
  · intro changes others hchanges hothers hlog
    have hread : readLog (changes.flatMap Change.text) = some changes :=
      readLog_flatMap_text hchanges
    rw [hlog, readLog_flatMap_text hothers] at hread
    exact (Option.some.inj hread).symm
  · intro observer reader start change hchange
    exact isOneLined_of_mem_changes Table.keepsEndings_v3 Table.lineFeed_not_mem_text_v3 observer
      reader start hchange

end Stream

end LineMigration
