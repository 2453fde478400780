import LineMigration.Stream.Edit
import LineMigration.Proofs.Stream.Writer

/-!
# The course of a run

`Reached` says how far a run has come: these lines were read, admitted by the observer and
written, with these calls, and the writer stands here. `Stopped` lists every way in which a run
can stop after that, and `editAll_stopped` says that each run stops in one of them; nothing else
about the loop is needed. A run that comes to the end has collected what it has told
(`Stopped.collected_eq`). From a step of `Reached` follow the changes that were told, the bytes
that were received, and what no write changes.
-/

namespace LineMigration.Stream

/-- The calls of the observer for one line: none where no key was found. -/
def callsAt {σ : Type} (table : Table) (number : Nat) (line : Text) (writer : σ) :
    List (Sighting σ) :=
  match table.apply line with
  | none => []
  | some new => [⟨changeOf number line new, writer⟩]

/-- The observer lets a line pass: no key was found in it, or its change does not stop the run. -/
def Admits (table : Table) (observer : Observer) (told : List Change) (number : Nat)
    (line : Text) : Prop :=
  ∀ new, table.apply line = some new → observer told (changeOf number line new) = none

/-- The changes of the lines from number `number` on. -/
def changesFrom (table : Table) : Nat → List Text → List Change
  | _, [] => []
  | number, line :: rest =>
    match table.apply line with
    | none => changesFrom table (number + 1) rest
    | some new => changeOf number line new :: changesFrom table (number + 1) rest

/-- The lines as they are written, one after another. -/
def editedLines (table : Table) (lines : List Text) : Text := (lines.map table.edited).flatten

variable {σ : Type} [Writer σ]

/-- `Reached table observer start before calls writer` says that the lines `before` were read,
admitted and written, which took the writer from `start` to `writer`. -/
inductive Reached (table : Table) (observer : Observer) (start : σ) :
    List Text → List (Sighting σ) → σ → Prop where
  | start : Reached table observer start [] [] start
  | line {before : List Text} {calls : List (Sighting σ)} {writer next : σ} {line : Text} :
      Reached table observer start before calls writer →
      Admits table observer (calls.map (·.change)) before.length line →
      Writer.write writer (Text.utf8 (table.edited line)) = (next, none) →
      Reached table observer start (before ++ [line])
        (calls ++ callsAt table before.length line writer) next

/-- Every way in which a run over lines can stop. -/
inductive Stopped (table : Table) (observer : Observer) (start : σ)
    (lines : List (Except Cause Text)) : Run σ → Prop where
  /-- All lines were written, and the changes that were told have been collected. -/
  | finished {before : List Text} {calls : List (Sighting σ)} {writer : σ} :
      Reached table observer start before calls writer → lines = before.map .ok →
      Stopped table observer start lines ⟨calls, writer, .ok (calls.map (·.change))⟩
  /-- A line could not be read. -/
  | unreadable {before : List Text} {calls : List (Sighting σ)} {writer : σ} {cause : Cause}
      {rest : List (Except Cause Text)} :
      Reached table observer start before calls writer →
      lines = before.map .ok ++ .error cause :: rest →
      Stopped table observer start lines ⟨calls, writer, .error (.read before.length cause)⟩
  /-- The observer did not admit a line. -/
  | refused {before : List Text} {calls : List (Sighting σ)} {writer : σ} {line new : Text}
      {fault : Fault} {rest : List (Except Cause Text)} :
      Reached table observer start before calls writer →
      lines = before.map .ok ++ .ok line :: rest → table.apply line = some new →
      observer (calls.map (·.change)) (changeOf before.length line new) = some fault →
      Stopped table observer start lines
        ⟨calls ++ callsAt table before.length line writer, writer, .error (.observer fault)⟩
  /-- A line could not be written whole. -/
  | unwritten {before : List Text} {calls : List (Sighting σ)} {writer stopped : σ} {line : Text}
      {cause : Cause} {rest : List (Except Cause Text)} :
      Reached table observer start before calls writer →
      lines = before.map .ok ++ .ok line :: rest →
      Admits table observer (calls.map (·.change)) before.length line →
      Writer.write writer (Text.utf8 (table.edited line)) = (stopped, some cause) →
      Stopped table observer start lines
        ⟨calls ++ callsAt table before.length line writer, stopped, .error (.write cause)⟩

/-! ## Every run stops -/

/-- A run with calls that were made before it. -/
def Run.afterCalls {σ : Type} (calls : List (Sighting σ)) (run : Run σ) : Run σ :=
  { run with sightings := calls ++ run.sightings }

variable {table : Table} {observer : Observer} {start : σ}

/-- A line that the observer admits is written, and the run goes on if the write does not fail. -/
theorem edit_admitted {told collected : List Change} {number : Nat} {line : Text} {writer : σ}
    (h : Admits table observer told number line) (rest : List (Except Cause Text)) :
    edit table observer number told collected (.ok line :: rest) writer =
      match Writer.write writer (Text.utf8 (table.edited line)) with
      | (stopped, some cause) => ⟨callsAt table number line writer, stopped, .error (.write cause)⟩
      | (next, none) =>
        (edit table observer (number + 1)
          (told ++ (callsAt table number line writer).map (·.change))
          (collected ++ (callsAt table number line writer).map (·.change)) rest next).afterCalls
            (callsAt table number line writer) := by
  cases happly : table.apply line with
  | none =>
    rw [edit_untouched happly]
    simp only [Table.edited, callsAt, happly, Option.getD_none, List.map_nil, List.append_nil]
    rfl
  | some new =>
    simp only [edit, Table.edited, callsAt, happly, h new happly, Option.getD_some]
    rfl

/-- A line that is not admitted has a change at which the observer stops the run. -/
theorem exists_fault_of_not_admits {told : List Change} {number : Nat} {line : Text}
    (h : ¬ Admits table observer told number line) :
    ∃ new fault, table.apply line = some new ∧
      observer told (changeOf number line new) = some fault := by
  simp only [Admits, not_forall] at h
  obtain ⟨new, happly, hrefused⟩ := h
  obtain ⟨fault, hfault⟩ := Option.ne_none_iff_exists'.1 hrefused
  exact ⟨new, fault, happly, hfault⟩

/-- From where a run has come to, the rest of it stops in one of the ways. -/
theorem stopped_of_reached {before : List Text} {calls : List (Sighting σ)} {writer : σ}
    (h : Reached table observer start before calls writer) (lines : List (Except Cause Text)) :
    Stopped table observer start (before.map .ok ++ lines)
      ((edit table observer before.length (calls.map (·.change)) (calls.map (·.change)) lines
        writer).afterCalls calls) := by
  induction lines generalizing before calls writer with
  | nil => simpa [edit, Run.afterCalls] using Stopped.finished h (List.append_nil _)
  | cons first rest ih =>
    cases first with
    | error cause => simpa [edit, Run.afterCalls] using Stopped.unreadable h rfl
    | ok line =>
      by_cases hadmits : Admits table observer (calls.map (·.change)) before.length line
      · rw [edit_admitted hadmits]
        cases hwrite : Writer.write writer (Text.utf8 (table.edited line)) with
        | mk next failure =>
          cases failure with
          | some cause =>
            show Stopped table observer start (before.map .ok ++ .ok line :: rest)
              ⟨calls ++ callsAt table before.length line writer, next, .error (.write cause)⟩
            exact .unwritten h rfl hadmits hwrite
          | none =>
            have hnext := ih (.line h hadmits hwrite)
            simpa [Run.afterCalls] using hnext
      · obtain ⟨new, fault, happly, hfault⟩ := exists_fault_of_not_admits hadmits
        rw [edit_stopped happly hfault]
        have hcalls : callsAt table before.length line writer =
            [⟨changeOf before.length line new, writer⟩] := by
          simp only [callsAt, happly]
        exact hcalls ▸ Stopped.refused h rfl happly hfault

/-- Every run stops in one of the ways. -/
theorem editAll_stopped (reader : Reader) :
    Stopped table observer start reader.lines (editAll table observer reader start) := by
  have hstart : Reached table observer start [] [] start := .start
  simpa [editAll, Run.afterCalls] using stopped_of_reached hstart reader.lines

/-! ## What a run has told and written -/

variable {before : List Text} {calls : List (Sighting σ)} {writer : σ}

omit [Writer σ] in
/-- The changes of lines and one more line are those of the lines and what is found in it. -/
theorem changesFrom_append_line (number : Nat) (lines : List Text) (line : Text) (writer : σ) :
    changesFrom table number (lines ++ [line]) =
      changesFrom table number lines ++
        (callsAt table (number + lines.length) line writer).map (·.change) := by
  induction lines generalizing number with
  | nil =>
    simp only [List.nil_append, changesFrom, callsAt, List.length_nil, Nat.add_zero]
    cases table.apply line <;> rfl
  | cons first rest ih =>
    have hnumber : number + 1 + rest.length = number + (first :: rest).length := by
      simp only [List.length_cons]
      omega
    simp only [List.cons_append, changesFrom, ih, hnumber]
    cases table.apply first <;> rfl

/-- The observer was told the changes of the lines that were passed. -/
theorem Reached.changes (h : Reached table observer start before calls writer) :
    calls.map (·.change) = changesFrom table 0 before := by
  induction h with
  | start => rfl
  | @line before calls writer next line _ _ _ ih =>
    rw [List.map_append, ih, changesFrom_append_line 0 before line writer, Nat.zero_add]

/-- With the calls for one more line it was told the changes of that line too. -/
theorem Reached.changes_append_line (h : Reached table observer start before calls writer)
    (line : Text) :
    (calls ++ callsAt table before.length line writer).map (·.change) =
      changesFrom table 0 (before ++ [line]) := by
  rw [List.map_append, h.changes, changesFrom_append_line 0 before line writer, Nat.zero_add]

theorem editedLines_append_line (lines : List Text) (line : Text) :
    editedLines table (lines ++ [line]) = editedLines table lines ++ table.edited line := by
  simp [editedLines]

/-- Lines of which there is nothing to tell are written as they are. -/
theorem editedLines_of_changesFrom_eq_nil {number : Nat} {lines : List Text}
    (h : changesFrom table number lines = []) : editedLines table lines = lines.flatten := by
  induction lines generalizing number with
  | nil => rfl
  | cons line rest ih =>
    cases happly : table.apply line with
    | some new => simp [changesFrom, happly] at h
    | none =>
      simp only [changesFrom, happly] at h
      have hrest : (rest.map table.edited).flatten = rest.flatten := ih h
      simp [editedLines, Table.edited_of_apply_eq_none happly, hrest]

/-- An observer that stops at every change has been told none by a run that goes on. -/
theorem Reached.calls_eq_nil (hrefuses : ∀ told change, observer told change ≠ none)
    (h : Reached table observer start before calls writer) : calls = [] := by
  induction h with
  | start => rfl
  | @line before calls writer next line _ hadmits _ ih =>
    cases happly : table.apply line with
    | none => simp [ih, callsAt, happly]
    | some new => exact absurd (hadmits new happly) (hrefuses _ _)

/-- A writer that accounts for its bytes has received the lines as they are written. -/
theorem Reached.received {received : σ → Bytes} (haccounts : Writer.Accounts received)
    (h : Reached table observer start before calls writer) :
    received writer = received start ++ Text.utf8 (editedLines table before) := by
  induction h with
  | start => simp [editedLines]
  | line _ _ hwrite ih =>
    rw [haccounts _ _ _ hwrite, ih, editedLines_append_line, Text.utf8_append, List.append_assoc]

/-- What no write changes holds wherever a run has come to. -/
theorem Reached.holds (holds : σ → Prop)
    (hstep : ∀ writer bytes, holds writer → holds (Writer.write writer bytes).1)
    (hstart : holds start) (h : Reached table observer start before calls writer) :
    holds writer := by
  induction h with
  | start => exact hstart
  | @line before calls writer next line _ _ hwrite ih =>
    have hnext := hstep writer (Text.utf8 (table.edited line)) ih
    rwa [hwrite] at hnext

/-- A writer that does not fail at its start fails nowhere on the way. -/
theorem Reached.write_ne_error {usable : σ → Prop} (hnever : Writer.NeverFails usable)
    (hstart : usable start) (h : Reached table observer start before calls writer) (bytes : Bytes)
    {stopped : σ} {cause : Cause} : Writer.write writer bytes ≠ (stopped, some cause) := by
  obtain ⟨next, hnext, -⟩ := hnever writer bytes (h.holds usable hnever.step hstart)
  rw [hnext]
  intro hfailed
  cases hfailed

/-- A run that has passed no line stands at its start. -/
theorem Reached.eq_start (h : Reached table observer start [] calls writer) : writer = start := by
  generalize hbefore : ([] : List Text) = before at h
  cases h with
  | start => rfl
  | line => simp at hbefore

/-! ## Where a run fails -/

/-- The observer admits every line, after the changes of the lines before it. -/
def AdmitsAll (table : Table) (observer : Observer) (lines : List Text) : Prop :=
  ∀ before line rest, lines = before ++ line :: rest →
    Admits table observer (changesFrom table 0 before) before.length line

/-- A run that has passed the lines `before` fails at the next one, for a reason that lies in that
line: it cannot be read, or the observer stops at its change. -/
inductive FailsAt (table : Table) (observer : Observer) (before : List Text) :
    Except Cause Text → Failure → Prop where
  | unreadable {cause : Cause} :
      FailsAt table observer before (.error cause) (.read before.length cause)
  | refused {line new : Text} {fault : Fault} : table.apply line = some new →
      observer (changesFrom table 0 before) (changeOf before.length line new) = some fault →
      FailsAt table observer before (.ok line) (.observer fault)

/-- One more line that is admitted after the others. -/
theorem AdmitsAll.append_line {line : Text} (h : AdmitsAll table observer before)
    (hadmits : Admits table observer (changesFrom table 0 before) before.length line) :
    AdmitsAll table observer (before ++ [line]) := by
  intro earlier asked rest heq
  -- The line asked for is the one that came last, or it came before.
  rcases List.eq_nil_or_concat rest with rfl | ⟨others, last, rfl⟩
  · obtain ⟨rfl, hlast⟩ := List.append_inj' heq rfl
    cases hlast
    exact hadmits
  · rw [List.concat_eq_append, ← List.cons_append, ← List.append_assoc] at heq
    obtain ⟨rfl, -⟩ := List.append_inj' heq rfl
    exact h earlier asked others rfl

/-- Lines that were passed were admitted. -/
theorem Reached.admitsAll (h : Reached table observer start before calls writer) :
    AdmitsAll table observer before := by
  induction h with
  | start =>
    intro before line rest heq
    simp at heq
  | @line before calls writer next line hreached hadmits _ ih =>
    rw [hreached.changes] at hadmits
    exact ih.append_line hadmits

/-- What a run has told, wherever it stopped, are the changes of the first lines, up to the one that
it stopped at if that could be read. -/
theorem Stopped.exists_read {lines : List (Except Cause Text)} {run : Run σ}
    (h : Stopped table observer start lines run) :
    ∃ read rest, lines = read.map .ok ++ rest ∧ run.changes = changesFrom table 0 read := by
  cases h with
  | finished hreached hlines => exact ⟨_, [], by rw [hlines, List.append_nil], hreached.changes⟩
  | unreadable hreached hlines => exact ⟨_, _, hlines, hreached.changes⟩
  | @refused before calls writer line new fault rest hreached hlines =>
    exact ⟨before ++ [line], rest, by simp [hlines], hreached.changes_append_line line⟩
  | @unwritten before calls writer stopped line cause rest hreached hlines =>
    exact ⟨before ++ [line], rest, by simp [hlines], hreached.changes_append_line line⟩

/-- A run that comes to the end has collected the changes that it has told. -/
theorem Stopped.collected_eq {lines : List (Except Cause Text)} {run : Run σ}
    {collected : List Change} (h : Stopped table observer start lines run)
    (hok : run.outcome = .ok collected) : collected = run.changes := by
  cases h with
  | finished =>
    cases hok
    rfl
  | unreadable => cases hok
  | refused => cases hok
  | unwritten => cases hok

theorem collected_eq_changes {reader : Reader} {collected : List Change}
    (hok : (editAll table observer reader start).outcome = .ok collected) :
    collected = (editAll table observer reader start).changes :=
  (editAll_stopped reader).collected_eq hok

/-- A run without a failure has passed all lines. -/
theorem Stopped.reached {lines : List (Except Cause Text)} {run : Run σ}
    (h : Stopped table observer start lines run) (hfailure : run.failure = none) :
    ∃ before, Reached table observer start before run.sightings run.writer ∧
      lines = before.map .ok := by
  cases h with
  | finished hreached hlines => exact ⟨_, hreached, hlines⟩
  | unreadable => cases hfailure
  | refused => cases hfailure
  | unwritten => cases hfailure

/-- A run without a failure gives the changes that it has told. -/
theorem Stopped.outcome_eq_ok {lines : List (Except Cause Text)} {run : Run σ}
    (h : Stopped table observer start lines run) (hfailure : run.failure = none) :
    run.outcome = .ok run.changes := by
  obtain ⟨collected, hok⟩ := Run.failure_eq_none_iff.1 hfailure
  rw [hok, h.collected_eq hok]

/-- Without lines there is nothing that a run could fail at. -/
theorem Stopped.failure_eq_none {run : Run σ} (h : Stopped table observer start [] run) :
    run.failure = none := by
  cases h with
  | finished => rfl
  | unreadable _ hlines => simp at hlines
  | refused _ hlines => simp at hlines
  | unwritten _ hlines => simp at hlines

/-- Before a writer that does not fail, a run that fails has passed the lines before one and fails
at that one. -/
theorem Stopped.failsAt {usable : σ → Prop} (hnever : Writer.NeverFails usable)
    (hstart : usable start) {lines : List (Except Cause Text)} {run : Run σ} {failure : Failure}
    (h : Stopped table observer start lines run) (hfailure : run.failure = some failure) :
    ∃ before calls failing rest, Reached table observer start before calls run.writer ∧
      lines = before.map .ok ++ failing :: rest ∧
      FailsAt table observer before failing failure := by
  cases h with
  | finished => cases hfailure
  | @unreadable before calls writer cause rest hreached hlines =>
    cases hfailure
    exact ⟨before, calls, _, rest, hreached, hlines, .unreadable⟩
  | @refused before calls writer line new fault rest hreached hlines happly hfault =>
    cases hfailure
    exact ⟨before, calls, _, rest, hreached, hlines, .refused happly (hreached.changes ▸ hfault)⟩
  | unwritten hreached _ _ hwrite =>
    exact absurd hwrite (hreached.write_ne_error hnever hstart _)

/-- Where neither the observer nor a write fails, a run passes all lines, or it stops at the first
one that cannot be read. -/
theorem Stopped.finished_or_unreadable {usable : σ → Prop}
    (hobserver : ∀ told change, observer told change = none)
    (hnever : Writer.NeverFails usable) (hstart : usable start)
    {lines : List (Except Cause Text)} {run : Run σ}
    (h : Stopped table observer start lines run) :
    (∃ before, Reached table observer start before run.sightings run.writer ∧
      lines = before.map .ok ∧ run.failure = none) ∨
    ∃ before cause rest, Reached table observer start before run.sightings run.writer ∧
      lines = before.map .ok ++ .error cause :: rest ∧
      run.failure = some (.read before.length cause) := by
  cases h with
  | finished hreached hlines => exact .inl ⟨_, hreached, hlines, rfl⟩
  | unreadable hreached hlines => exact .inr ⟨_, _, _, hreached, hlines, rfl⟩
  | refused _ _ _ hfault => simp [hobserver] at hfault
  | unwritten hreached _ _ hwrite =>
    exact absurd hwrite (hreached.write_ne_error hnever hstart _)

end LineMigration.Stream
