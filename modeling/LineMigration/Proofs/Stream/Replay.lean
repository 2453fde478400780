import LineMigration.Proofs.Stream.Course
import LineMigration.Proofs.Table.Ending
import LineMigration.Proofs.Text.Line

/-!
# The changes make the output

A change holds the number of a line and the bodies of the line before and after. With a table that
keeps the endings of lines this is all there is to know: `replayed` puts the new body for the old
one in the lines of the input, for each change that was told, and what comes out is what was
written (`editAll_replays`).
-/

namespace LineMigration

/-- The lines of a text after a change: in its line the new body stands for the old one. -/
def Change.replay (change : Change) (lines : List Text) : List Text :=
  lines.modify change.line fun line ↦ change.new ++ line.drop change.old.length

namespace Stream

/-- The lines of a text after changes, one after another. -/
def replayed (changes : List Change) (lines : List Text) : List Text :=
  changes.foldl (fun lines change ↦ change.replay lines) lines

variable {table : Table}

/-! ## Changes of lines -/

/-- The changes of lines are those of the lines in which a key is found, each with its number. -/
theorem mem_changesFrom_iff {number : Nat} {lines : List Text} {change : Change} :
    change ∈ changesFrom table number lines ↔
      ∃ passed line new, lines[passed]? = some line ∧ table.apply line = some new ∧
        change = changeOf (number + passed) line new := by
  induction lines generalizing number with
  | nil => simp [changesFrom]
  | cons first rest ih =>
    have hrest : (∃ passed line new, (first :: rest)[passed + 1]? = some line ∧
        table.apply line = some new ∧ change = changeOf (number + (passed + 1)) line new) ↔
        change ∈ changesFrom table (number + 1) rest := by
      simp only [ih, List.getElem?_cons_succ, Nat.add_assoc, Nat.add_comm 1]
    rw [← Nat.or_exists_add_one, hrest, changesFrom]
    cases happly : table.apply first with
    | none => simp [happly]
    | some new => simp [happly]

/-- A change puts the new body for the old one and leaves the ending. -/
theorem edited_eq_of_apply (htable : table.KeepsEndings) {line new : Text}
    (happly : table.apply line = some new) :
    table.edited line = Text.body new ++ Text.ending line := by
  obtain ⟨-, rfl⟩ := Table.apply_eq_some_iff.1 happly
  rw [Table.body_edited htable, Table.edited_eq_body_append_ending htable line]

/-- A modification at the number of the lines that were passed falls on the line after them. -/
theorem modify_append_cons (passed rest : List Text) (line : Text) (f : Text → Text) :
    (passed ++ line :: rest).modify passed.length f = passed ++ f line :: rest := by
  induction passed with
  | nil => rfl
  | cons first passed ih => simp [List.modify_succ_cons, ih]

/-- The changes of lines, replayed behind lines that have been passed, are the edited lines. -/
theorem replayed_changesFrom (htable : table.KeepsEndings) (passed lines : List Text) :
    replayed (changesFrom table passed.length lines) (passed ++ lines) =
      passed ++ lines.map table.edited := by
  induction lines generalizing passed with
  | nil => rfl
  | cons line rest ih =>
    have hrest := ih (passed ++ [table.edited line])
    simp only [List.length_append, List.length_singleton, List.append_assoc,
      List.singleton_append] at hrest
    rw [changesFrom, List.map_cons]
    cases happly : table.apply line with
    | none =>
      rw [← hrest, Table.edited_of_apply_eq_none happly]
    | some new =>
      have hdrop : line.drop (Text.body line).length = Text.ending line :=
        calc line.drop (Text.body line).length
            = (Text.body line ++ Text.ending line).drop (Text.body line).length := by
              rw [Text.body_append_ending]
          _ = Text.ending line := List.drop_left
      rw [← hrest, edited_eq_of_apply htable happly, ← hdrop, replayed, List.foldl_cons,
        Change.replay, changeOf, modify_append_cons]
      rfl

/-! ## The run -/

variable {σ : Type} [Writer σ] {observer : Observer} {start : σ}

/-- A run over valid UTF-8 that comes to the end has passed all lines and told their changes. -/
theorem editAll_of_ok {reader : Reader} {text : Text} {changes : List Change}
    (hbytes : reader.blocks.flatten = Text.utf8 text)
    (hok : (editAll table observer reader start).outcome = .ok changes) :
    let run := editAll table observer reader start
    Reached table observer start (Text.lines text) run.sightings run.writer ∧
      changes = changesFrom table 0 (Text.lines text) := by
  intro run
  have hfailure : run.failure = none := Run.failure_eq_none_iff.2 ⟨changes, hok⟩
  obtain ⟨passed, hreached, hlines⟩ := (editAll_stopped reader).reached hfailure
  have htext := Reader.lines_of_utf8 hbytes (Reader.failure_eq_none_of_lines hlines)
  rw [hlines, List.map_inj_right fun _ _ h ↦ Except.ok.inj h] at htext
  subst htext
  exact ⟨hreached, (collected_eq_changes hok).trans hreached.changes⟩

/-- What is told of a run that came to the end makes its output out of its input. Each change gives
the number of a line, the body of that line, and what the table makes of this body; the line is
written as the new body before the old ending, with the bytes it had exactly if the bodies are the
same. A line of which nothing was told is written as it was. -/
theorem editAll_replays (htable : table.KeepsEndings) {reader : Reader} {text : Text}
    {changes : List Change} (hbytes : reader.blocks.flatten = Text.utf8 text)
    (hok : (editAll table observer reader start).outcome = .ok changes) :
    (∀ change ∈ changes, ∃ line, (Text.lines text)[change.line]? = some line ∧
      change.old = Text.body line ∧ table.apply change.old = some change.new ∧
      table.edited line = change.new ++ Text.ending line ∧
      (change.old = change.new ↔ Text.utf8 (table.edited line) = Text.utf8 line)) ∧
    (∀ number line, (Text.lines text)[number]? = some line →
      (∀ change ∈ changes, change.line ≠ number) → table.edited line = line) ∧
    replayed changes (Text.lines text) = (Text.lines text).map table.edited ∧
    ∀ received : σ → Bytes, Writer.Accounts received →
      received (editAll table observer reader start).writer =
        received start ++ Text.utf8 (replayed changes (Text.lines text)).flatten := by
  obtain ⟨hreached, rfl⟩ := editAll_of_ok hbytes hok
  have hreplayed : replayed (changesFrom table 0 (Text.lines text)) (Text.lines text) =
      (Text.lines text).map table.edited := replayed_changesFrom htable [] _
  refine ⟨?_, ?_, hreplayed, ?_⟩
  · intro change hchange
    obtain ⟨number, line, new, hline, happly, rfl⟩ := mem_changesFrom_iff.1 hchange
    have hedited := edited_eq_of_apply htable happly
    refine ⟨line, by simpa [changeOf] using hline, rfl, Table.apply_body htable happly, hedited, ?_⟩
    -- Before the same ending the bodies are the same exactly if the lines are.
    calc Text.body line = Text.body new
        ↔ Text.body line ++ Text.ending line = Text.body new ++ Text.ending line :=
          (List.append_left_inj _).symm
      _ ↔ table.edited line = line := by rw [Text.body_append_ending, hedited, eq_comm]
      _ ↔ Text.utf8 (table.edited line) = Text.utf8 line :=
          ⟨congrArg Text.utf8, Text.utf8_injective⟩
  · intro number line hline hnone
    refine Table.edited_of_apply_eq_none (Option.eq_none_iff_forall_ne_some.2 fun new happly ↦ ?_)
    refine hnone (changeOf number line new) ?_ rfl
    exact mem_changesFrom_iff.2 ⟨number, line, new, hline, happly, by rw [Nat.zero_add]⟩
  · intro received haccounts
    rw [hreached.received haccounts, hreplayed]
    rfl

/-- Two changes: in a line that ends with a carriage return and a line feed, and in a last line
that has no ending; the line between them is copied. -/
theorem editAll_replays_two_changes :
    let table : Table := [⟨['a'], ['x', 'y']⟩]
    let text : Text := ['a', '\r', 'b', '\r', '\n', 'c', '\n', 'b', 'a']
    let reader : Reader := .ofBytes (Text.utf8 text)
    let changes : List Change := [⟨0, ['a', '\r', 'b'], ['x', 'y', '\r', 'b']⟩,
      ⟨2, ['b', 'a'], ['b', 'x', 'y']⟩]
    let run := editAll table .silent reader (Limited.fresh none (.system .noSpace))
    table.KeepsEndings ∧ run.outcome = .ok changes ∧
      replayed changes (Text.lines text) = (Text.lines text).map table.edited ∧
      run.writer.taken = Text.utf8 ['x', 'y', '\r', 'b', '\r', '\n', 'c', '\n', 'b', 'x', 'y'] := by
  intro table text reader changes run
  have htable : table.KeepsEndings := by decide
  have hok : run.outcome = .ok changes := by rfl
  have hbytes : reader.blocks.flatten = Text.utf8 text := by simp [reader, Reader.ofBytes]
  obtain ⟨-, -, hreplayed, hreceived⟩ := editAll_replays htable hbytes hok
  refine ⟨htable, hok, hreplayed, ?_⟩
  rw [hreceived _ Limited.accounts]
  decide +kernel

end Stream

end LineMigration
