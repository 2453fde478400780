import LineMigration.Text.Basic

/-!
# Arguments

The words of a command line, read from left to right up to the first problem. Options are known
by their whole names. A word that is no option is the FILE, of which there is at most one; after
`--` every word is. `parse` gives what is asked for or the complaint about a word.

An empty FILE is a problem of its own, which is found when the word after it has been understood
or the line has ended.
-/

namespace LineMigration

namespace Command

/-- The options. -/
inductive Flag where
  | dryRun
  | list
  | json
  | help
  | version
  deriving DecidableEq

namespace Flag

/-- The name of an option, without its two dashes. -/
def name : Flag → String
  | dryRun => "dry-run"
  | list => "list"
  | json => "json"
  | help => "help"
  | version => "version"

/-- The options in the order in which they are explained. -/
def all : List Flag := [dryRun, list, json, help, version]

/-- The option of a name. -/
def ofName? (name : Text) : Option Flag := all.find? fun flag ↦ flag.name.toList = name

/-- The option as it is written. -/
def written (flag : Flag) : Text := "--".toList ++ flag.name.toList

end Flag

/-- What a command line asks for, apart from help. -/
structure Arguments where
  file : Option Text
  dryRun : Bool
  list : Bool
  json : Bool
  deriving DecidableEq

/-- The empty command line. -/
def Arguments.none : Arguments := ⟨.none, false, false, false⟩

/-- What is to be done. -/
inductive Invocation where
  | run (arguments : Arguments)
  /-- The long or the short help. -/
  | help (long : Bool)
  | version
  deriving DecidableEq

/-- Complaints about a command line. -/
inductive UsageError where
  /-- An option that is not known, or a second FILE. -/
  | unexpected (argument : Text)
  | repeated (flag : Flag)
  /-- An option was given a value, and none takes one. -/
  | unwantedValue (value : Text) (flag : Flag)
  | emptyFile
  deriving DecidableEq

/-- The line that a complaint is told in. -/
def UsageError.message : UsageError → Text
  | unexpected argument =>
    "error: unexpected argument '".toList ++ argument ++ "' found".toList
  | repeated flag =>
    "error: the argument '".toList ++ flag.written ++ "' cannot be used multiple times".toList
  | unwantedValue value flag =>
    "error: unexpected value '".toList ++ value ++ "' for '".toList ++ flag.written
      ++ "' found; no more were expected".toList
  | emptyFile => "error: a value is required for '[FILE]' but none was supplied".toList

/-- The exit code of a complaint. -/
def UsageError.exitCode : Nat := 2

/-! ## Words -/

/-- What a word of the command line can be. -/
inductive Token where
  | file (word : Text)
  | endOfOptions
  /-- Two dashes, a name, and a value if an equals sign follows the name. -/
  | long (name : Text) (value : Option Text)
  /-- One dash and at least one letter, of which the first decides. -/
  | short (letter : Char)
  deriving DecidableEq

/-- A name and what follows the first equals sign. -/
def splitValue : Text → Text × Option Text
  | [] => ([], none)
  | c :: rest =>
    if c = '=' then ([], some rest)
    else
      let (name, value) := splitValue rest
      (c :: name, value)

/-- What a word is; a dash alone is a FILE. -/
def Token.ofWord : Text → Token
  | ['-', '-'] => .endOfOptions
  | '-' :: '-' :: rest => .long (splitValue rest).1 (splitValue rest).2
  | '-' :: letter :: _ => .short letter
  | word => .file word

/-! ## Reading the line -/

/-- The arguments, unless their FILE is empty. -/
def settle (arguments : Arguments) : Except UsageError Arguments :=
  if arguments.file = some [] then .error .emptyFile else .ok arguments

/-- The arguments with an option that is not help; none may come twice. -/
def Arguments.set (arguments : Arguments) (flag : Flag) : Except UsageError Arguments :=
  match flag with
  | .dryRun =>
    if arguments.dryRun then .error (.repeated .dryRun) else .ok { arguments with dryRun := true }
  | .list =>
    if arguments.list then .error (.repeated .list) else .ok { arguments with list := true }
  | .json =>
    if arguments.json then .error (.repeated .json) else .ok { arguments with json := true }
  | .help | .version => .ok arguments

/-- The words from left to right; `optionsEnded` says whether `--` has been read. -/
def parseFrom (arguments : Arguments) (optionsEnded : Bool) :
    List Text → Except UsageError Invocation
  | [] => (settle arguments).map .run
  | word :: rest =>
    match (if optionsEnded then Token.file word else Token.ofWord word) with
    | .file word =>
      if arguments.file.isSome then .error (.unexpected word)
      else parseFrom { arguments with file := some word } optionsEnded rest
    | .endOfOptions => parseFrom arguments true rest
    | .short letter =>
      if letter = 'h' then (settle arguments).map fun _ ↦ .help false
      else if letter = 'V' then (settle arguments).map fun _ ↦ .version
      else .error (.unexpected ['-', letter])
    | .long name value? =>
      match Flag.ofName? name, value? with
      | none, _ => .error (.unexpected ('-' :: '-' :: name))
      | some flag, some value => .error (.unwantedValue value flag)
      | some .help, none => (settle arguments).map fun _ ↦ .help true
      | some .version, none => (settle arguments).map fun _ ↦ .version
      | some flag, none =>
        match settle arguments with
        | .error complaint => .error complaint
        | .ok settled =>
          match settled.set flag with
          | .error complaint => .error complaint
          | .ok longer => parseFrom longer optionsEnded rest

/-- What a command line asks for. -/
def parse (words : List Text) : Except UsageError Invocation := parseFrom .none false words

end Command

end LineMigration
