import LineMigration.Program

/-!
# The program on a real system

`OnDisk.system` is what a real system does for a process: it opens, reads, writes and moves files,
and prints. The order of the steps, what is printed and how failures are worded is that of
`Program.run`. A handle of the system has a buffer of its own.
-/

namespace LineMigration.OnDisk

/-- The cause of a failure that the system told. -/
def causeOf (error : IO.Error) : Cause :=
  match error with
  | .alreadyExists _ code details | .noFileOrDirectory _ code details
  | .invalidArgument _ code details | .permissionDenied _ code details
  | .resourceExhausted _ code details | .inappropriateType _ code details
  | .noSuchThing _ code details | .interrupted _ code details => told code details
  | .otherError code details | .resourceBusy code details | .resourceVanished code details
  | .unsupportedOperation code details | .hardwareFault code details
  | .unsatisfiedConstraints code details | .illegalOperation code details
  | .protocolError code details | .timeExpired code details => told code details
  | .unexpectedEof => .other "unexpected end of file".toList
  | .userError words => .other words.toList
where
  /-- The words of the system with its number. -/
  told (code : UInt32) (details : String) : Cause :=
    .other (details.toList ++ " (os error ".toList ++ Text.decimal code.toNat ++ ")".toList)

/-- The value of an action, or the cause of its failure. -/
def attempt {α : Type} (action : IO α) : IO (Except Cause α) := do
  try return .ok (← action) catch error => return .error (causeOf error)

/-- The same for an action on a path. One with a NUL is not given to the system. -/
def attemptAt {α : Type} (path : Text) (action : String → IO α) : IO (Except Cause α) := do
  match FileSystem.checkPath path with
  | .error cause => return .error cause
  | .ok () => attempt (action (String.ofList path))

/-- The cause of the failure of an action, if it fails. -/
def refusal (action : IO Unit) : IO (Option Cause) := do
  match ← attempt action with
  | .ok () => return none
  | .error cause => return some cause

/-- The names of the working directory. -/
def workingNames : IO (Except Cause (List Name)) :=
  attempt do return Path.properNames (← IO.currentDir).toString.toList

/-- The lines of an open file. -/
def readLines (source : IO.FS.Handle) : IO (List (Except Cause Text)) := do
  match ← attempt source.readBinToEnd with
  | .ok bytes => return (Reader.ofBytes bytes.data.toList).lines
  | .error cause => return Reader.lines ⟨[], some cause⟩

/-- Prints a piece at once. -/
def print (piece : Text) : IO (Option Cause) := do
  let stdout ← IO.getStdout
  try
    stdout.putStr (String.ofList piece)
    stdout.flush
    return none
  catch error =>
    match error with
    | .resourceVanished code _ =>
      if code.toNat = Errno.brokenPipe.number then return some (.system .brokenPipe)
    | _ => pure ()
    return some (causeOf error)

/-- Prints to the standard error, where a failure cannot be told. -/
def complain (text : Text) : IO Unit := do
  try (← IO.getStderr).putStr (String.ofList text) catch _ => pure ()

/-- The real system. -/
def system : System IO IO.FS.Handle IO.FS.Handle where
  absolute path := return Path.absolute (← workingNames) path
  isDirectory path := do
    let known ← attemptAt path fun place ↦ do (← IO.FS.realPath place).isDir
    return known.toOption.getD false
  openRead path := attemptAt path fun place ↦ IO.FS.Handle.mk place .read
  readLines := readLines
  create path := attemptAt path fun place ↦ IO.FS.Handle.mk place .write
  write target bytes := refusal (target.write ⟨bytes.toArray⟩)
  flush target := refusal target.flush
  close _ := pure ()
  rename source target := attemptAt source fun place ↦ IO.FS.rename place (String.ofList target)
  print := print
  complain := complain
  reject text := complain (text ++ "\n".toList ++ Command.usageReminder)

end LineMigration.OnDisk

/-- The program. -/
def main (words : List String) : IO UInt32 := do
  let exitCode ← LineMigration.Program.run LineMigration.OnDisk.system (words.map String.toList)
  return UInt32.ofNat exitCode
