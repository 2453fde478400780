import LineMigration.Proofs.Stream.Course
import LineMigration.Proofs.Table.Apply
import LineMigration.Proofs.Text.Line

/-!
# Line by line is the whole text at once

With keys that stay within a line, what a stream of lines is edited to is what the table makes of
the whole text as a single line (`editAll_whole_text`). The lines of a text are edited apart
because replacement goes on behind a line feed as if the text began there; new texts may have line
feeds of their own. No change is told exactly if the text has no key at all.
-/

namespace LineMigration.Stream

variable {table : Table} {text : Text}

/-! ## Lines against the text -/

/-- The lines of a text, edited one by one, are the edited text. -/
theorem editedLines_lines (hkeys : table.KeysWithinLines) (text : Text) :
    editedLines table (Text.lines text) = table.edited text := by
  induction text using Text.line_induction with
  | last text h =>
    by_cases hne : text = []
    · rw [hne, Table.edited_nil_of_keysWithinLines hkeys]
      rfl
    · simp [editedLines, Text.lines_of_not_mem h hne]
  | line before rest h ih =>
    have hline : table.edited (before ++ ['\n']) = table.edited before ++ ['\n'] := by
      rw [Table.edited_append_lineFeed hkeys, Table.edited_nil_of_keysWithinLines hkeys]
    rw [Text.lines_append_lineFeed h, Table.edited_append_lineFeed hkeys, ← ih]
    simp [editedLines, hline]

/-- A key is in a text exactly if it is in one of the lines. -/
theorem hasKeyIn_eq_false_iff_lines (hkeys : table.KeysWithinLines) (text : Text) :
    table.hasKeyIn text = false ↔ ∀ line ∈ Text.lines text, table.hasKeyIn line = false := by
  induction text using Text.line_induction with
  | last text h =>
    by_cases hne : text = []
    · simp [hne, Table.hasKeyIn_nil_of_keysWithinLines hkeys, Text.lines]
    · simp [Text.lines_of_not_mem h hne]
  | line before rest h ih =>
    have hline : table.hasKeyIn (before ++ ['\n']) = table.hasKeyIn before := by
      rw [Table.hasKeyIn_append_lineFeed hkeys, Table.hasKeyIn_nil_of_keysWithinLines hkeys,
        Bool.or_false]
    rw [Text.lines_append_lineFeed h, Table.hasKeyIn_append_lineFeed hkeys]
    simp [hline, ih]

/-- There is nothing to tell of lines exactly if no line has a key in it. -/
theorem changesFrom_eq_nil_iff (number : Nat) (lines : List Text) :
    changesFrom table number lines = [] ↔ ∀ line ∈ lines, table.hasKeyIn line = false := by
  induction lines generalizing number with
  | nil => simp [changesFrom]
  | cons line rest ih =>
    simp only [changesFrom, List.forall_mem_cons, ← Table.apply_eq_none_iff]
    cases happly : table.apply line with
    | none => simpa [Table.apply_eq_none_iff] using ih (number + 1)
    | some new => simp

/-! ## The run -/

variable {σ : Type} [Writer σ] {observer : Observer} {start : σ}

/-- Lines that could all be read hold no unreadable one. -/
theorem ne_map_ok_of_unreadable {before texts : List Text} {cause : Cause}
    {rest : List (Except Cause Text)} :
    texts.map .ok ≠ before.map .ok ++ .error cause :: rest := by
  intro heq
  have hmem : (Except.error cause : Except Cause Text) ∈ texts.map .ok := by
    rw [heq]
    exact List.mem_append_right _ List.mem_cons_self
  obtain ⟨text, -, htext⟩ := List.mem_map.1 hmem
  cases htext

/-- Where neither reading, nor the observer, nor writing fails, a run comes to the end. -/
theorem editAll_of_neverFails {usable : σ → Prop} (hnever : Writer.NeverFails usable)
    (hobserver : ∀ told change, observer told change = none) {reader : Reader}
    {texts : List Text} (hlines : reader.lines = texts.map .ok) (hstart : usable start) :
    ∃ calls writer, Reached table observer start texts calls writer ∧
      editAll table observer reader start = ⟨calls, writer, .ok (calls.map (·.change))⟩ := by
  have hstopped : Stopped table observer start reader.lines
    (editAll table observer reader start) := editAll_stopped reader
  rw [hlines] at hstopped
  rcases hstopped.finished_or_unreadable hobserver hnever hstart with
    ⟨before, hreached, heq, hfailure⟩ | ⟨before, cause, rest, -, heq, -⟩
  · obtain rfl : texts = before := (List.map_inj_right fun _ _ h ↦ Except.ok.inj h).1 heq
    exact ⟨_, _, hreached, by rw [← Run.changes, ← hstopped.outcome_eq_ok hfailure]⟩
  · exact absurd heq ne_map_ok_of_unreadable

/-- A stream of valid UTF-8, however it is cut into blocks, is edited line by line to what the
table makes of the whole text, and nothing is told exactly if the text has no key. -/
theorem editAll_whole_text (hkeys : table.KeysWithinLines)
    (hobserver : ∀ told change, observer told change = none)
    {received : σ → Bytes} {usable : σ → Prop} (haccounts : Writer.Accounts received)
    (hnever : Writer.NeverFails usable) (hstart : usable start)
    {reader : Reader} (hbytes : reader.blocks.flatten = Text.utf8 text)
    (hend : reader.failure = none) :
    let run := editAll table observer reader start
    ∃ changes, run.outcome = .ok changes ∧
      received run.writer = received start ++ Text.utf8 ((table.apply text).getD text) ∧
      (changes = [] ↔ ∀ entry ∈ table, ¬ entry.key <:+: text) ∧
      (changes = [] → received run.writer = received start ++ reader.blocks.flatten) := by
  have hlines := Reader.lines_of_utf8 hbytes hend
  obtain ⟨calls, writer, hreached, hrun⟩ :=
    editAll_of_neverFails hnever hobserver hlines hstart
  have hwritten : received writer = received start ++ Text.utf8 ((table.apply text).getD text) := by
    rw [hreached.received haccounts, editedLines_lines hkeys]
    rfl
  have hchanges : changesFrom table 0 (Text.lines text) = [] ↔ table.hasKeyIn text = false := by
    rw [changesFrom_eq_nil_iff, hasKeyIn_eq_false_iff_lines hkeys]
  simp only [hrun]
  refine ⟨_, rfl, hwritten, ?_, ?_⟩
  · rw [← Table.hasKeyIn_eq_false_iff, ← hchanges, ← hreached.changes]
  · intro hnil
    have happly : table.apply text = none := by
      rw [Table.apply_eq_none_iff, ← hchanges, ← hreached.changes]
      exact hnil
    rw [hwritten, happly, hbytes]
    rfl

/-- The shipped table over two lines, read in two blocks that are cut within a key. -/
theorem editAll_whole_text_v3 :
    let text : Text := "stage\nopenShift".toList
    let reader : Reader := ⟨[(Text.utf8 text).take 8, (Text.utf8 text).drop 8], none⟩
    let run := editAll .v3 .silent reader (Limited.fresh none (.system .noSpace))
    Table.v3.KeysWithinLines ∧ ∃ changes, run.outcome = .ok changes ∧
      run.writer.taken = [] ++ Text.utf8 ((Table.v3.apply text).getD text) ∧
      (changes = [] ↔ ∀ entry ∈ Table.v3, ¬ entry.key <:+: text) := by
  intro text reader run
  have hbytes : reader.blocks.flatten = Text.utf8 text := by
    simp [reader, List.take_append_drop]
  obtain ⟨changes, houtcome, htaken, hnil, -⟩ :=
    editAll_whole_text Table.keysWithinLines_v3 (fun _ _ ↦ rfl) Limited.accounts
      Limited.neverFails (show (Limited.fresh none (.system .noSpace)).room = none from rfl)
      hbytes rfl
  exact ⟨Table.keysWithinLines_v3, changes, houtcome, htaken, hnil⟩

end LineMigration.Stream
