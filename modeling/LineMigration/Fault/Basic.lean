import LineMigration.Fault.Cause
import LineMigration.Json.Basic

/-!
# Faults

A fault is what a failed run tells its user: a code that names the kind, a message, details as a
JSON value and hints in the order in which they were given. The functions `missingArgument`,
`invalidArgument`, `io` and `json` fix message and details of their kind.
-/

namespace LineMigration

/-- The kinds of fault. -/
inductive Fault.Code where
  | missingArgument
  | invalidArgument
  | ioError
  | jsonError
  deriving DecidableEq

/-- The dotted name of a kind. -/
def Fault.Code.name : Fault.Code → String
  | missingArgument => "validation.missing_argument"
  | invalidArgument => "validation.invalid_argument"
  | ioError => "internal.io_error"
  | jsonError => "internal.json_error"

/-- The exit code of a run that ends in a fault of this kind. -/
def Fault.Code.exitCode : Fault.Code → Nat
  | missingArgument => 1
  | invalidArgument => 2
  | ioError => 1
  | jsonError => 1

/-- What a failed run tells its user. -/
structure Fault where
  code : Fault.Code
  message : Text
  details : Json
  hints : List Text

namespace Fault

/-- The fault with one more hint, after those that it has. -/
def withHint (fault : Fault) (hint : Text) : Fault := { fault with hints := fault.hints ++ [hint] }

/-- Arguments that have to be given were not. -/
def missingArgument (args : List Text) : Fault where
  code := .missingArgument
  message := "You didn't provide a filename".toList
  details := .record [("args".toList, .array (args.map .string))]
  hints := []

/-- An argument has a value that it may not have. -/
def invalidArgument (field problem : Text) : Fault where
  code := .invalidArgument
  message := "Invalid argument".toList
  details := .record [("field".toList, .string field), ("problem".toList, .string problem)]
  hints := []

/-- The details of an internal fault: the error and, if there is one, what was being done. -/
def internalDetails (error : Text) (context : Option Text) : Json :=
  .record (("error".toList, .string error) ::
    match context with
    | none => []
    | some doing => [("context".toList, .string doing)])

/-- Reading, writing or moving a file failed. -/
def io (error : Text) (context : Option Text) : Fault where
  code := .ioError
  message := "IO error".toList
  details := internalDetails error context
  hints := []

/-- A value could not be written as JSON. -/
def json (error : Text) (context : Option Text) : Fault where
  code := .jsonError
  message := "JSON error".toList
  details := internalDetails error context
  hints := []

/-- The fault of a cause that arose while doing what the context says. -/
def ofCause (cause : Cause) (context : Text) : Fault := io cause.message (some context)

end Fault

end LineMigration
