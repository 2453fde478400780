import LineMigration.Text.Basic

/-!
# Causes of failure

Why an operation on a file, a path or a stream failed. `Errno` holds the system's refusals with
their numbers, `Cause` adds what is found before or beside the system, and `Cause.message` is the
wording of each. Read `Errno.number_injective`: no two refusals share a number.
-/

namespace LineMigration

/-- The refusals of the operating system. -/
inductive Errno where
  /-- What is asked is never allowed, as another name for a directory. -/
  | notPermitted
  /-- A name that has to exist does not. -/
  | noEntry
  /-- The place is in use, as `.` and `..` always are. -/
  | busy
  /-- A new name exists already. -/
  | exists
  /-- A directory is needed. -/
  | notDirectory
  /-- A directory stands where none may. -/
  | isDirectory
  /-- A directory would be moved below itself. -/
  | invalid
  /-- The device is full. -/
  | noSpace
  /-- Nobody is left to read from a pipe. -/
  | brokenPipe
  /-- A name or a path is too long. -/
  | nameTooLong
  /-- A directory that has to be empty holds names. -/
  | notEmpty
  /-- Too many symbolic links in a row. -/
  | tooManyLinks
  deriving DecidableEq

namespace Errno

/-- The system's number of a refusal. -/
def number : Errno → Nat
  | notPermitted => 1
  | noEntry => 2
  | busy => 16
  | .exists => 17
  | notDirectory => 20
  | isDirectory => 21
  | invalid => 22
  | noSpace => 28
  | brokenPipe => 32
  | nameTooLong => 36
  | notEmpty => 39
  | tooManyLinks => 40

/-- The system's words for a refusal. -/
def description : Errno → String
  | notPermitted => "Operation not permitted"
  | noEntry => "No such file or directory"
  | busy => "Device or resource busy"
  | .exists => "File exists"
  | notDirectory => "Not a directory"
  | isDirectory => "Is a directory"
  | invalid => "Invalid argument"
  | noSpace => "No space left on device"
  | brokenPipe => "Broken pipe"
  | nameTooLong => "File name too long"
  | notEmpty => "Directory not empty"
  | tooManyLinks => "Too many levels of symbolic links"

/-- No two refusals share a number. -/
theorem number_injective {a b : Errno} (h : a.number = b.number) : a = b := by
  cases a <;> cases b <;> first | rfl | exact absurd h (by decide)

end Errno

/-- Why an operation failed. -/
inductive Cause where
  /-- The system refused. -/
  | system (errno : Errno)
  /-- A path holds the character NUL, which no path given to the system may hold. -/
  | nulInPath
  /-- The empty path has no absolute form. -/
  | emptyPath
  /-- A line is not UTF-8. -/
  | invalidUtf8
  /-- A write took nothing although there was something to take. -/
  | tookNothing
  /-- A failure with words of its own. -/
  | other (words : Text)
  deriving DecidableEq

/-- The words for a cause. -/
def Cause.message : Cause → Text
  | .system errno =>
    errno.description.toList ++ " (os error ".toList ++ Text.decimal errno.number ++ ")".toList
  | .nulInPath => "file name contained an unexpected NUL byte".toList
  | .emptyPath => "cannot make an empty path absolute".toList
  | .invalidUtf8 => "stream did not contain valid UTF-8".toList
  | .tookNothing => "failed to write whole buffer".toList
  | .other words => words

end LineMigration
