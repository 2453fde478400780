import LineMigration.Command.Run

/-!
# The program

The steps of a process in their order, over what the system does for it. `System` is the record of
these operations, in any monad: on a real system they act, and in memory they change a state. What
is decided from their answers is decided here, by the same parts as in `Stream.edit`,
`Migration.migrate` and `Command.run`. Read `run` first.
-/

namespace LineMigration

/-- What the system does for a process. A `Source` is a file open for reading, a `Target` one that
was created and has a buffer before it. -/
structure System (m : Type → Type) (Source Target : Type) where
  /-- The absolute form of a path. -/
  absolute : Text → m (Except Cause Text)
  isDirectory : Text → m Bool
  openRead : Text → m (Except Cause Source)
  /-- The lines of what was opened, as it is now. -/
  readLines : Source → m (List (Except Cause Text))
  create : Text → m (Except Cause Target)
  write : Target → Bytes → m (Option Cause)
  /-- Passes on what is pending in the buffer. -/
  flush : Target → m (Option Cause)
  /-- Lets go of the target. What is still pending is passed on, and no failure is told. -/
  close : Target → m Unit
  rename : Text → Text → m (Except Cause Unit)
  /-- Prints to the standard output, at once. -/
  print : Text → m (Option Cause)
  /-- Prints to the standard error. -/
  complain : Text → m Unit
  /-- Tells what is wrong with the command line. -/
  reject : Text → m Unit

namespace Program

variable {m : Type → Type} [Monad m] {Source Target : Type}

/-! ## The file -/

/-- Takes lines through the table: a change is told, and then its line is put. -/
def editLines (table : Table) (tell : Change → m (Option Fault))
    (put : Bytes → m (Option Cause)) :
    Nat → List Change → List (Except Cause Text) → m (Except Stream.Failure (List Change))
  | _, collected, [] => return .ok collected
  | number, _, .error cause :: _ => return .error (.read number cause)
  | number, collected, .ok line :: rest =>
    match table.apply line with
    | none => do
      match ← put (Text.utf8 line) with
      | some cause => return .error (.write cause)
      | none => editLines table tell put (number + 1) collected rest
    | some new => do
      let change := Stream.changeOf number line new
      match ← tell change with
      | some fault => return .error (.observer fault)
      | none =>
        match ← put (Text.utf8 new) with
        | some cause => return .error (.write cause)
        | none => editLines table tell put (number + 1) (collected ++ [change]) rest

variable (system : System m Source Target)

/-- The scratch file is filled and takes the place of the file. -/
def replaceThrough (table : Table) (tell : Change → m (Option Fault)) (source : Source)
    (file scratch : Text) : m (Except Migration.Failure Migration.Result) := do
  match ← system.create scratch with
  | .error cause => return .error (.create scratch cause)
  | .ok target =>
    let lines ← system.readLines source
    match ← editLines table tell (system.write target) 0 [] lines with
    | .error failure =>
      system.close target
      return .error (.edit file failure)
    | .ok changes =>
      let refused ← system.flush target
      system.close target
      match refused with
      | some cause => return .error (.flush scratch cause)
      | none =>
        match ← system.rename scratch file with
        | .error cause => return .error (.swap scratch file cause)
        | .ok () => return .ok ⟨file, changes, true⟩

/-- The edit alone, into nothing. -/
def rehearse (table : Table) (tell : Change → m (Option Fault)) (source : Source) (file : Text) :
    m (Except Migration.Failure Migration.Result) := do
  let lines ← system.readLines source
  match ← editLines table tell (fun _ ↦ return none) 0 [] lines with
  | .error failure => return .error (.edit file failure)
  | .ok changes => return .ok ⟨file, changes, false⟩

/-- The migration of the file that a path leads to. -/
def migrate (table : Table) (dryRun : Bool) (tell : Change → m (Option Fault)) (path : Text) :
    m (Except Migration.Failure Migration.Result) := do
  match ← system.absolute path with
  | .error cause => return .error (.resolve path cause)
  | .ok file =>
    if ← system.isDirectory file then return .error (.directory file)
    else
      match ← system.openRead file with
      | .error cause => return .error (.openFile file cause)
      | .ok source =>
        if dryRun then rehearse system table tell source file
        else
          match Path.sibling file with
          | none => return .error (.nameless file)
          | some scratch => replaceThrough system table tell source file scratch

/-! ## The process -/

/-- Does what the arguments ask for. -/
def execute (arguments : Command.Arguments) (tell : Change → m (Option Fault)) :
    m (Except Fault Output) := do
  match Command.taskOf arguments with
  | .error fault => return .error fault
  | .ok .list => return .ok (.listed .v3)
  | .ok (.migrate file) =>
    match ← migrate system .v3 arguments.dryRun tell file with
    | .ok result => return .ok (Command.outputOf arguments.dryRun result)
    | .error failure => return .error failure.fault

/-- Prints a piece, and gives the fault of that. -/
def show? (piece : Text) : m (Option Fault) :=
  return Command.faultOfPrint (← system.print piece)

/-- The process in text mode, up to its exit code. -/
def runText (arguments : Command.Arguments) : m Nat := do
  match ← execute system arguments fun change ↦ show? system change.text with
  | .ok output =>
    match ← show? system output.text with
    | none => return 0
    | some fault =>
      system.complain fault.text
      return fault.code.exitCode
  | .error fault =>
    if fault.code = .missingArgument then
      let _ ← system.print fault.text
      return fault.code.exitCode
    else
      system.complain fault.text
      return fault.code.exitCode

/-- The process in JSON mode, up to its exit code. -/
def runJson (arguments : Command.Arguments) : m Nat := do
  let outcome ← execute system arguments fun _ ↦ return none
  match ← show? system (Command.payload outcome) with
  | none => return Command.exitCodeOf outcome
  | some fault =>
    system.complain ("Error: ".toList ++ fault.message ++ "\n".toList)
    return 1

/-- The process for a command line, up to its exit code. -/
def run (words : List Text) : m Nat := do
  match Command.parse words with
  | .error complaint =>
    system.reject complaint.message
    return Command.UsageError.exitCode
  | .ok (.help long) =>
    let _ ← system.print (if long then Command.longHelp else Command.shortHelp)
    return 0
  | .ok .version =>
    let _ ← system.print Command.versionLine
    return 0
  | .ok (.run arguments) =>
    if arguments.json then runJson system arguments else runText system arguments

end Program

end LineMigration
