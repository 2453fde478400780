import LineMigration.Fault.Basic
import LineMigration.Stream.Reader
import LineMigration.Stream.Writer
import LineMigration.Table.Basic

/-!
# Editing a stream

Every line of a reader goes through a table and on to a writer. A line in which a key was found
is a `Change`; it is told to the observer before the line is written, and the observer may stop
the run. What it lets pass is collected, and is what the run gives if it comes to the end; a run
ends at the first thing that fails: reading a line, the observer, or writing.

Read `edit` first. `Run.outcome` says how a run ended and `Run.changes` what was told; the
`edit_` lemmas give one step each.
-/

namespace LineMigration

/-- A line in which a key was found: its number, counted from zero over all lines, and its text
before and after, without the ending. -/
structure Change where
  line : Nat
  old : Text
  new : Text
  deriving DecidableEq

/-- What is told of every change as it is found. It is asked with the changes that it was told
before and the one at hand, and stops the run by a fault. -/
abbrev Observer := List Change → Change → Option Fault

namespace Observer

/-- The observer that never stops a run. -/
def silent : Observer := fun _ _ ↦ none

/-- The observer that stops at one call, counted from zero. -/
def stopsAt (call : Nat) (fault : Fault) : Observer :=
  fun earlier _ ↦ if earlier.length = call then some fault else none

end Observer

namespace Stream

/-- Why a run ended before the reader did. -/
inductive Failure where
  /-- The line of this number could not be read. -/
  | read (line : Nat) (cause : Cause)
  /-- The observer stopped the run. -/
  | observer (fault : Fault)
  /-- A line could not be written whole. -/
  | write (cause : Cause)

/-- The fault of a failure, where `source` is what the reader is called. -/
def Failure.fault (source : Text) : Failure → Fault
  | .read line cause =>
    .ofCause cause ("read ".toList ++ source ++ " line ".toList ++ Text.decimal line)
  | .observer fault => fault
  | .write cause => .ofCause cause ("write rewritten ".toList ++ source)

/-- A call of the observer: the change it was told and the writer as it was then. -/
structure Sighting (σ : Type) where
  change : Change
  writer : σ

/-- What a run leaves: the calls of the observer, the one that stopped the run included, the
writer, and the changes that were collected or the failure. -/
structure Run (σ : Type) where
  sightings : List (Sighting σ)
  writer : σ
  outcome : Except Failure (List Change)

namespace Run

variable {σ : Type}

/-- The changes that the observer was told. -/
def changes (run : Run σ) : List Change := run.sightings.map (·.change)

/-- The failure of a run, if it failed. -/
def failure (run : Run σ) : Option Failure :=
  match run.outcome with
  | .error failure => some failure
  | .ok _ => none

theorem failure_eq_some_iff {run : Run σ} {failure : Failure} :
    run.failure = some failure ↔ run.outcome = .error failure := by
  unfold Run.failure
  cases run.outcome <;> simp

theorem failure_eq_none_iff {run : Run σ} :
    run.failure = none ↔ ∃ collected, run.outcome = .ok collected := by
  unfold Run.failure
  cases run.outcome <;> simp

/-- A run after a call that let it go on. -/
def after (sighting : Sighting σ) (run : Run σ) : Run σ :=
  { run with sightings := sighting :: run.sightings }

end Run

/-- The change that a line with a key in it is. -/
def changeOf (number : Nat) (line new : Text) : Change :=
  ⟨number, Text.body line, Text.body new⟩

variable {σ : Type} [Writer σ]

/-- The run over the lines from number `number` on, where `told` are the changes that the observer
has been told so far and `collected` those that were collected. -/
def edit (table : Table) (observer : Observer) :
    Nat → List Change → List Change → List (Except Cause Text) → σ → Run σ
  | _, _, collected, [], writer => ⟨[], writer, .ok collected⟩
  | number, _, _, .error cause :: _, writer => ⟨[], writer, .error (.read number cause)⟩
  | number, told, collected, .ok line :: rest, writer =>
    match table.apply line with
    | none =>
      match Writer.write writer (Text.utf8 line) with
      | (stopped, some cause) => ⟨[], stopped, .error (.write cause)⟩
      | (next, none) => edit table observer (number + 1) told collected rest next
    | some new =>
      let change := changeOf number line new
      match observer told change with
      | some fault => ⟨[⟨change, writer⟩], writer, .error (.observer fault)⟩
      | none =>
        match Writer.write writer (Text.utf8 new) with
        | (stopped, some cause) => ⟨[⟨change, writer⟩], stopped, .error (.write cause)⟩
        | (next, none) =>
          (edit table observer (number + 1) (told ++ [change]) (collected ++ [change]) rest
            next).after ⟨change, writer⟩

/-- The run over a whole reader. -/
def editAll (table : Table) (observer : Observer) (reader : Reader) (writer : σ) : Run σ :=
  edit table observer 0 [] [] reader.lines writer

/-! ## One step -/

variable {table : Table} {observer : Observer} {number : Nat} {told collected : List Change}
  {rest : List (Except Cause Text)} {writer : σ}

@[simp] theorem edit_nil :
    edit table observer number told collected [] writer = ⟨[], writer, .ok collected⟩ := rfl

/-- A line that cannot be read ends the run. -/
@[simp] theorem edit_error {cause : Cause} :
    edit table observer number told collected (.error cause :: rest) writer =
      ⟨[], writer, .error (.read number cause)⟩ := rfl

/-- A line without a key is written as it is, and nobody is told. -/
theorem edit_untouched {line : Text} (h : table.apply line = none) :
    edit table observer number told collected (.ok line :: rest) writer =
      match Writer.write writer (Text.utf8 line) with
      | (stopped, some cause) => ⟨[], stopped, .error (.write cause)⟩
      | (next, none) => edit table observer (number + 1) told collected rest next := by
  simp [edit, h]

/-- The observer stops the run before the line is written. -/
theorem edit_stopped {line new : Text} {fault : Fault} (h : table.apply line = some new)
    (hstop : observer told (changeOf number line new) = some fault) :
    edit table observer number told collected (.ok line :: rest) writer =
      ⟨[⟨changeOf number line new, writer⟩], writer, .error (.observer fault)⟩ := by
  simp [edit, h, hstop]

end Stream

end LineMigration
