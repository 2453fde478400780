import LineMigration.Json.Printer
import LineMigration.Migration

/-!
# Output

What a run prints. The log has a block of two lines and an empty one for every change, and a
closing line ends it. The envelope is a JSON object that holds either data or an error. Faults
are told as text or in the envelope.
-/

namespace LineMigration

/-! ## Changes -/

/-- The block of the log for one change. -/
def Change.text (change : Change) : Text :=
  let number := Text.decimal change.line
  "line ".toList ++ number ++ " old: ".toList ++ change.old ++ "\nline ".toList ++ number
    ++ " new: ".toList ++ change.new ++ "\n\n".toList

/-- A change as data. -/
def Change.json (change : Change) : Json :=
  .record [("line".toList, .count change.line), ("old".toList, .string change.old),
    ("new".toList, .string change.new)]

/-- An entry of a table as data. -/
def Entry.json (entry : Entry) : Json :=
  .record [("old".toList, .string entry.key), ("new".toList, .string entry.text)]

/-! ## Results -/

/-- What a successful run reports. -/
inductive Output where
  /-- A file was migrated, or would have been. -/
  | migrated (file : Text) (dryRun applied : Bool) (totalChanges : Nat) (changes : List Change)
  /-- The replacement table. -/
  | listed (table : Table)
  deriving DecidableEq

namespace Output

/-- The closing text of a run. -/
def text : Output → Text
  | migrated file _ true _ _ => "Changes saved to ".toList ++ file ++ "\n".toList
  | migrated file _ false _ _ => "Dry run: ".toList ++ file ++ " left unchanged\n".toList
  | listed table =>
    table.flatMap fun entry ↦ entry.key ++ " -> ".toList ++ entry.text ++ "\n".toList

/-- The result as data. -/
def json : Output → Json
  | migrated file dryRun applied totalChanges changes =>
    .record [("command".toList, .literal "migrate"), ("file".toList, .string file),
      ("dry_run".toList, .bool dryRun), ("applied".toList, .bool applied),
      ("total_changes".toList, .count totalChanges),
      ("changes".toList, .array (changes.map Change.json))]
  | listed table =>
    .record [("command".toList, .literal "migrate.list"),
      ("replacements".toList, .array (table.map Entry.json))]

end Output

/-! ## Faults -/

/-- A hint as data. -/
def hintJson (hint : Text) : Json := .object [("message".toList, .string hint)]

namespace Fault

/-- The fields of the error in the envelope; hints only if there are some. -/
def fields (fault : Fault) : List (Text × Json) :=
  [("code".toList, .literal fault.code.name), ("message".toList, .string fault.message),
    ("details".toList, fault.details)]
  ++ if fault.hints.isEmpty then [] else [("hints".toList, .array (fault.hints.map hintJson))]

/-- The line for one detail: a string as it is, any other value as JSON. -/
def detailLine : Text × Json → Text
  | (name, .string value) => "  ".toList ++ name ++ ": ".toList ++ value ++ "\n".toList
  | (name, value) => "  ".toList ++ name ++ ": ".toList ++ value.compact ++ "\n".toList

/-- The lines for the details; only the fields of an object are shown. -/
def detailLines : Json → Text
  | .object fields => fields.flatMap detailLine
  | _ => []

/-- The fault as text. A missing argument is told by its message alone. -/
def text (fault : Fault) : Text :=
  if fault.code = .missingArgument then fault.message ++ "\n".toList
  else
    "Error: ".toList ++ fault.message ++ " [".toList ++ fault.code.name.toList ++ "]\n".toList
      ++ detailLines fault.details
      ++ fault.hints.flatMap fun hint ↦ "  hint: ".toList ++ hint ++ "\n".toList

end Fault

/-! ## The envelope -/

/-- The envelope of a run that ended well. -/
def successEnvelope (data : Json) : Json :=
  .object [("success".toList, .bool true), ("data".toList, data)]

/-- The envelope of a run that ended in a fault. -/
def faultEnvelope (fault : Fault) : Json :=
  .object [("success".toList, .bool false), ("error".toList, .object fault.fields)]

end LineMigration
