import LineMigration.Command.Run
import LineMigration.Proofs.Json.Document

/-!
# Reading the envelope back

`document` spells out the object in which a run tells its outcome, and `outcomeOf?` asks for
exactly these fields. The text of an envelope is read as that object, and the object gives the
outcome (`envelope_lossless`): no two outcomes are told by the same text.
-/

namespace LineMigration

open Json

/-- The envelope of an outcome. -/
def envelope : Except Fault Output → Json
  | .ok output => successEnvelope output.json
  | .error fault => faultEnvelope fault

/-- The object for a change. -/
def Change.document (change : Change) : Json :=
  .object [("line".toList, .number change.line), ("new".toList, .string change.new),
    ("old".toList, .string change.old)]

/-- The object for an entry of a table. -/
def Entry.document (entry : Entry) : Json :=
  .object [("new".toList, .string entry.text), ("old".toList, .string entry.key)]

/-- The object for the data of a run that ended well. -/
def Output.document : Output → Json
  | migrated file dryRun applied totalChanges changes =>
    .object [("applied".toList, .bool applied),
      ("changes".toList, .array (changes.map Change.document)),
      ("command".toList, .string "migrate".toList), ("dry_run".toList, .bool dryRun),
      ("file".toList, .string file), ("total_changes".toList, .number totalChanges)]
  | listed table =>
    .object [("command".toList, .string "migrate.list".toList),
      ("replacements".toList, .array (table.map Entry.document))]

/-- The object for a fault, with its hints if it has some. -/
def Fault.document (fault : Fault) : Json :=
  match fault.hints with
  | [] =>
    .object [("code".toList, .string fault.code.name.toList),
      ("message".toList, .string fault.message), ("details".toList, fault.details)]
  | hint :: hints =>
    .object [("code".toList, .string fault.code.name.toList),
      ("message".toList, .string fault.message), ("details".toList, fault.details),
      ("hints".toList, .array ((hint :: hints).map hintJson))]

/-- The object for an outcome. -/
def document : Except Fault Output → Json
  | .ok output => .object [("success".toList, .bool true), ("data".toList, output.document)]
  | .error fault => .object [("success".toList, .bool false), ("error".toList, fault.document)]

theorem Change.json_eq (change : Change) : change.json = change.document := rfl

theorem Entry.json_eq (entry : Entry) : entry.json = entry.document := rfl

/-- The names of the data ascend. -/
theorem Output.json_eq (output : Output) : output.json = output.document := by
  cases output <;> rfl

theorem Fault.fields_eq (fault : Fault) : .object fault.fields = fault.document := by
  rcases fault with ⟨code, message, details, _ | ⟨hint, hints⟩⟩ <;> rfl

/-- The envelope is the object that was spelled out. -/
theorem envelope_eq (outcome : Except Fault Output) : envelope outcome = document outcome := by
  cases outcome with
  | ok output => rw [envelope, successEnvelope, Output.json_eq, document]
  | error fault => rw [envelope, faultEnvelope, Fault.fields_eq, document]

/-! ## Asking for the fields -/

/-- The values of an object that has exactly the fields of these names, in this order. -/
def Json.values? (names : List String) : Json → Option (List Json)
  | .object fields =>
    if fields.map Prod.fst = names.map String.toList then some (fields.map Prod.snd) else none
  | _ => none

/-- The change of an object. -/
def changeOf? (value : Json) : Option Change :=
  match value.values? ["line", "new", "old"] with
  | some [.number (.ofNat line), .string new, .string old] => some ⟨line, old, new⟩
  | _ => none

/-- The entry of an object. -/
def entryOf? (value : Json) : Option Entry :=
  match value.values? ["new", "old"] with
  | some [.string text, .string key] => some ⟨key, text⟩
  | _ => none

/-- The output of an object; the command says which one it is. -/
def outputOf? (value : Json) : Option Output :=
  match value.values? ["applied", "changes", "command", "dry_run", "file", "total_changes"] with
  | some [.bool applied, .array changes, .string command, .bool dryRun, .string file,
      .number (.ofNat totalChanges)] =>
    if command = "migrate".toList then
      (changes.mapM changeOf?).map (.migrated file dryRun applied totalChanges)
    else none
  | _ =>
    match value.values? ["command", "replacements"] with
    | some [.string command, .array table] =>
      if command = "migrate.list".toList then (table.mapM entryOf?).map .listed else none
    | _ => none

/-- The code of a name. -/
def codeOf? (name : Text) : Option Fault.Code :=
  [.missingArgument, .invalidArgument, .ioError, .jsonError].find? fun code ↦
    code.name.toList = name

/-- The hint of an object. -/
def hintOf? (value : Json) : Option Text :=
  match value.values? ["message"] with
  | some [.string hint] => some hint
  | _ => none

/-- The fault of an object. There are hints only if there are some to be given. -/
def faultOf? (value : Json) : Option Fault :=
  match value.values? ["code", "message", "details"] with
  | some [.string name, .string message, details] =>
    (codeOf? name).map fun code ↦ ⟨code, message, details, []⟩
  | _ =>
    match value.values? ["code", "message", "details", "hints"] with
    | some [.string name, .string message, details, .array (hint :: hints)] =>
      (codeOf? name).bind fun code ↦
        ((hint :: hints).mapM hintOf?).map fun hints ↦ ⟨code, message, details, hints⟩
    | _ => none

/-- The outcome of an object, or nothing if it has other fields than those of an outcome. -/
def outcomeOf? (value : Json) : Option (Except Fault Output) :=
  match value.values? ["success", "data"] with
  | some [.bool true, data] => (outputOf? data).map .ok
  | _ =>
    match value.values? ["success", "error"] with
    | some [.bool false, error] => (faultOf? error).map .error
    | _ => none

/-- Items that are each read as they are told are read as they are told. -/
theorem mapM_map_eq_some {α : Type} {told : α → Json} {asked : Json → Option α}
    (h : ∀ item, asked (told item) = some item) (items : List α) :
    (items.map told).mapM asked = some items := by
  induction items with
  | nil => rfl
  | cons item items ih => simp [h, ih]

theorem changeOf?_document (change : Change) : changeOf? change.document = some change := rfl

theorem entryOf?_document (entry : Entry) : entryOf? entry.document = some entry := rfl

theorem outputOf?_document (output : Output) : outputOf? output.document = some output := by
  cases output with
  | migrated file dryRun applied totalChanges changes =>
    show ((changes.map Change.document).mapM changeOf?).map _ = _
    rw [mapM_map_eq_some changeOf?_document]
    rfl
  | listed table =>
    show ((table.map Entry.document).mapM entryOf?).map _ = _
    rw [mapM_map_eq_some entryOf?_document]
    rfl

/-- Different codes have different names. -/
theorem codeOf?_name (code : Fault.Code) : codeOf? code.name.toList = some code := by
  cases code <;> rfl

theorem hintOf?_hintJson (hint : Text) : hintOf? (hintJson hint) = some hint := rfl

theorem faultOf?_document (fault : Fault) : faultOf? fault.document = some fault := by
  rcases fault with ⟨code, message, details, _ | ⟨hint, hints⟩⟩
  · show (codeOf? code.name.toList).map _ = _
    rw [codeOf?_name]
    rfl
  · show ((codeOf? code.name.toList).bind fun code ↦
      (((hint :: hints).map hintJson).mapM hintOf?).map fun hints ↦ _) = _
    rw [codeOf?_name, mapM_map_eq_some hintOf?_hintJson]
    rfl

/-- The object of an outcome gives the outcome. -/
theorem outcomeOf?_document (outcome : Except Fault Output) :
    outcomeOf? (document outcome) = some outcome := by
  cases outcome with
  | ok output =>
    show (outputOf? output.document).map Except.ok = _
    rw [outputOf?_document]
    rfl
  | error fault =>
    show (faultOf? fault.document).map Except.error = _
    rw [faultOf?_document]
    rfl

/-! ## The text -/

/-- The text of an envelope is a document that is read as the object for its outcome, and the
object gives the outcome; so different outcomes have different envelopes. -/
theorem envelope_lossless :
    (∀ outcome, Json.read (envelope outcome).pretty = some (document outcome)) ∧
      (∀ outcome, outcomeOf? (document outcome) = some outcome) ∧
      Function.Injective fun outcome ↦ (envelope outcome).pretty := by
  have hread : ∀ outcome, Json.read (envelope outcome).pretty = some (document outcome) := by
    intro outcome
    rw [envelope_eq]
    have hbare : ∀ c ∈ ([] : Text), Json.isSpace c = true := by simp
    simpa using read_pretty (document outcome) hbare
  refine ⟨hread, outcomeOf?_document, fun outcome other htext ↦ ?_⟩
  dsimp only at htext
  have hdocument : document outcome = document other := by
    have hsame := hread outcome
    rw [htext, hread other] at hsame
    exact (Option.some.inj hsame).symm
  have houtcome := outcomeOf?_document outcome
  rw [hdocument, outcomeOf?_document] at houtcome
  exact (Option.some.inj houtcome).symm

/-- A quote, a backslash and a control character, and inside the details an object, a whole number
and the decimals 0.5 and -1e+30. -/
example :
    let half : Decimal := ⟨⟨false, 0, some ⟨['5'], by decide, rfl⟩, none⟩, rfl⟩
    let large : Decimal := ⟨⟨true, 1, none, some ⟨false, .plus, ['3', '0'], by decide, rfl⟩⟩, rfl⟩
    let details : Json := .object
      [("a".toList, .array [.null, .object []]), ([], .number (-3)), (['b'], .decimal half),
        (['c'], .decimal large)]
    let fault : Fault := ⟨.jsonError, ['"', '\\', '\x1b', 'é'], details, [['\n'], []]⟩
    (Json.read (envelope (.error fault)).pretty).isSome = true := by decide +kernel

end LineMigration
