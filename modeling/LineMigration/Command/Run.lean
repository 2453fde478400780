import LineMigration.Command.Arguments
import LineMigration.Command.Help
import LineMigration.Output
import LineMigration.Table.Shipped

/-!
# Running a command

`execute` does what the arguments ask for and tells an observer of every changed line. `run` is a
whole process: it reads the command line, executes, prints to a standard output that may be full
or have no reader, and ends with an exit code. In text mode a change is printed as it is found,
and one that cannot be printed stops the run; in JSON mode all is printed at the end. A reader
that has gone is no failure.
-/

namespace LineMigration

namespace Command

/-! ## Executing -/

/-- What arguments ask for once they agree with each other. -/
inductive Task where
  | list
  | migrate (file : Text)
  deriving DecidableEq

/-- The task, or the fault of arguments that do not agree. -/
def taskOf (arguments : Arguments) : Except Fault Task :=
  match arguments.list, arguments.file with
  | true, none => .ok .list
  | true, some file =>
    let problem := "--list takes no FILE, got ".toList ++ file
    .error ((Fault.invalidArgument "list".toList problem).withHint
      "Run --list on its own to print the replacement table".toList)
  | false, none => .error (Fault.missingArgument ["file".toList])
  | false, some file => .ok (.migrate file)

/-- The output for the result of a migration. -/
def outputOf (dryRun : Bool) (result : Migration.Result) : Output :=
  .migrated result.file dryRun result.applied result.changes.length result.changes

/-- What an execution leaves: the file system, the changes that the observer was told, and the
output or the fault. -/
structure Execution where
  fileSystem : FileSystem
  told : List Change
  outcome : Except Fault Output

/-- Does what the arguments ask for. -/
def execute (fs : FileSystem) (arguments : Arguments) (observer : Observer) : Execution :=
  match taskOf arguments with
  | .error fault => ⟨fs, [], .error fault⟩
  | .ok .list => ⟨fs, [], .ok (.listed .v3)⟩
  | .ok (.migrate file) =>
    let run := Migration.migrate .v3 arguments.dryRun observer fs file
    ⟨run.fileSystem, run.told,
      match run.outcome with
      | .ok result => .ok (outputOf arguments.dryRun result)
      | .error failure => .error failure.fault⟩

/-! ## Standard output -/

/-- The state of the standard output. -/
inductive Stdout where
  /-- Everything arrives. -/
  | healthy
  /-- Every write fails, as there is no space. -/
  | full
  /-- Nobody reads, and nothing arrives. -/
  | closed
  deriving DecidableEq

/-- The fault of printing, where the system gave this answer. That the reader has gone is none. -/
def faultOfPrint : Option Cause → Option Fault
  | none => none
  | some (.system .brokenPipe) => none
  | some cause => some (.ofCause cause "write stdout".toList)

namespace Stdout

/-- What arrives of a printed piece. -/
def shown : Stdout → Text → Text
  | healthy, piece => piece
  | _, _ => []

/-- Why the system does not take a piece, if it does not. The empty piece is not written at
all. -/
def answer : Stdout → Text → Option Cause
  | full, _ :: _ => some (.system .noSpace)
  | closed, _ :: _ => some (.system .brokenPipe)
  | _, _ => none

/-- The fault of printing a piece. -/
def refusal (stdout : Stdout) (piece : Text) : Option Fault := faultOfPrint (stdout.answer piece)

/-- The observer that prints every change. -/
def log (stdout : Stdout) : Observer := fun _ change ↦ stdout.refusal change.text

@[simp] theorem refusal_healthy (piece : Text) : healthy.refusal piece = none := by
  cases piece <;> rfl

@[simp] theorem refusal_closed (piece : Text) : closed.refusal piece = none := by
  cases piece <;> rfl

end Stdout

/-! ## The process -/

/-- What a process leaves. -/
structure Process where
  fileSystem : FileSystem
  exitCode : Nat
  stdout : Text
  stderr : Text
  deriving DecidableEq

/-- The process in text mode. -/
def runText (fs : FileSystem) (stdout : Stdout) (arguments : Arguments) : Process :=
  let execution := execute fs arguments stdout.log
  let log := execution.told.flatMap fun change ↦ stdout.shown change.text
  match execution.outcome with
  | .ok output =>
    match stdout.refusal output.text with
    | none => ⟨execution.fileSystem, 0, log ++ stdout.shown output.text, []⟩
    | some fault => ⟨execution.fileSystem, fault.code.exitCode, log, fault.text⟩
  | .error fault =>
    if fault.code = .missingArgument then
      ⟨execution.fileSystem, fault.code.exitCode, log ++ stdout.shown fault.text, []⟩
    else ⟨execution.fileSystem, fault.code.exitCode, log, fault.text⟩

/-- The envelope of an outcome as it is printed. -/
def payload (outcome : Except Fault Output) : Text :=
  match outcome with
  | .ok output => (successEnvelope output.json).pretty ++ "\n".toList
  | .error fault => (faultEnvelope fault).pretty ++ "\n".toList

/-- The exit code of an outcome. -/
def exitCodeOf : Except Fault Output → Nat
  | .ok _ => 0
  | .error fault => fault.code.exitCode

/-- The process in JSON mode. -/
def runJson (fs : FileSystem) (stdout : Stdout) (arguments : Arguments) : Process :=
  let execution := execute fs arguments .silent
  let printed := payload execution.outcome
  match stdout.refusal printed with
  | none => ⟨execution.fileSystem, exitCodeOf execution.outcome, stdout.shown printed, []⟩
  | some fault =>
    ⟨execution.fileSystem, 1, [], "Error: ".toList ++ fault.message ++ "\n".toList⟩

/-- The process for a command line. Help and version end well even if they cannot be printed, and
a complaint is told by its own line alone. -/
def run (fs : FileSystem) (stdout : Stdout) (words : List Text) : Process :=
  match parse words with
  | .error complaint => ⟨fs, UsageError.exitCode, [], complaint.message⟩
  | .ok (.help true) => ⟨fs, 0, stdout.shown longHelp, []⟩
  | .ok (.help false) => ⟨fs, 0, stdout.shown shortHelp, []⟩
  | .ok .version => ⟨fs, 0, stdout.shown versionLine, []⟩
  | .ok (.run arguments) =>
    if arguments.json then runJson fs stdout arguments else runText fs stdout arguments

end Command

end LineMigration
