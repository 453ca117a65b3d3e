import DerivedQuery.Text

/-!
# Arguments

The command line: a command with its own arguments, and options that may stand before or after it.

* `Format`, `Command`, `Options`, `Invocation`;
* `Request`: what the arguments ask for;
* `Arguments.parse`.
-/

namespace DerivedQuery.Cli

/-- How results are written. -/
inductive Format where
  | table
  | json
  deriving DecidableEq, Repr

/-- What is to be done. -/
inductive Command where
  /-- Shows the query of a name. -/
  | explain (name : String)
  /-- Shows the tokens of a name. -/
  | tokens (name : String)
  /-- Tells which names are accepted. -/
  | check (names : List String) (file : Option String)
  /-- Shows the canonical form of a name. -/
  | render (name : String)
  deriving DecidableEq, Repr

/-- Options of the command line. -/
structure Options where
  config : Option String := none
  /-- How many times more detail is asked for. -/
  verbosity : Nat := 0
  format : Option Format := none
  deriving DecidableEq, Repr

/-- The options after the command win over those before it. -/
def Options.override (before after : Options) : Options where
  config := after.config.or before.config
  verbosity := if after.verbosity = 0 then before.verbosity else after.verbosity
  format := after.format.or before.format

/-- A command and its options. -/
structure Invocation where
  options : Options
  command : Command
  deriving DecidableEq, Repr

/-- What the arguments ask for. -/
inductive Request where
  | version
  | help
  | invoke (i : Invocation)
  deriving DecidableEq, Repr

/-- Why a command line is refused. -/
inductive Misuse where
  | unexpected (argument : String)
  | missingValue (option : String)
  | invalidValue (option value : String)
  | repeated (option : String)
  | missingCommand
  | missingName
  deriving DecidableEq, Repr

/-- The wording of a refusal. -/
def Misuse.message : Misuse → String
  | unexpected argument => s!"unexpected argument '{argument}' found"
  | missingValue option => s!"a value is required for '{option}' but none was supplied"
  | invalidValue option value => s!"invalid value '{value}' for '{option}'"
  | repeated option => s!"the argument '{option}' cannot be used multiple times"
  | missingCommand => "a command is required but none was supplied"
  | missingName => "the following required arguments were not provided: <NAME>"

/-! ## Words of the command line -/

/-- The commands. -/
inductive Verb where
  | explain
  | tokens
  | check
  | render
  deriving DecidableEq, Repr

/-- The command with the name. -/
def Verb.parse? : String → Option Verb
  | "explain" => some explain
  | "tokens" => some tokens
  | "check" => some check
  | "render" => some render
  | _ => none

/-- The format with the name. -/
def Format.parse? : String → Option Format
  | "table" => some table
  | "json" => some json
  | _ => none

/-- Options that take a value. -/
inductive Setting where
  | config
  | format
  | file
  deriving DecidableEq, Repr

/-- The option as it is written out. -/
def Setting.title : Setting → String
  | config => "--config"
  | format => "--format"
  | file => "--file"

/-- One word of the command line. -/
inductive Word where
  /-- All words after it are plain. -/
  | endOfOptions
  | plain (s : String)
  | version
  | help
  | verbose
  /-- An option with the value in the same word, if it is there. -/
  | setting (s : Setting) (value : Option String)
  | unknown (s : String)
  deriving DecidableEq, Repr

namespace Word

/-- The words that short options in one argument stand for. -/
def ofShort (argument : String) : List Char → List Word
  | [] => []
  | 'v' :: cs => verbose :: ofShort argument cs
  | 'V' :: _ => [version]
  | 'h' :: _ => [help]
  | 'f' :: [] => [setting .format none]
  | 'f' :: '=' :: cs => [setting .format (some (String.ofList cs))]
  | 'f' :: cs => [setting .format (some (String.ofList cs))]
  | _ => [unknown argument]

/-- The option of a name, with the value that stands after an equality sign. -/
def ofLong (argument : String) (name : List Char) (value : Option String) : Word :=
  match String.ofList name, value with
  | "config", value => setting .config value
  | "format", value => setting .format value
  | "file", value => setting .file value
  | "verbose", none => verbose
  | "version", none => version
  | "help", none => help
  | _, _ => unknown argument

/-- The words of an argument. -/
def ofArgument (argument : String) : List Word :=
  match argument.toList with
  | ['-'] => [plain argument]
  | ['-', '-'] => [endOfOptions]
  | '-' :: '-' :: cs =>
    let (name, rest) := cs.span (· != '=')
    [ofLong argument name (match rest with
      | [] => none
      | _ :: value => some (String.ofList value))]
  | '-' :: cs => ofShort argument cs
  | _ => [plain argument]

end Word

/-! ## Reading -/

/-- What has been read of a command line. -/
structure Reading where
  /-- Options before the command. -/
  before : Options := {}
  verb : Option Verb := none
  /-- Options after the command. -/
  after : Options := {}
  file : Option String := none
  /-- Names, the last one first. -/
  names : List String := []
  /-- The option that waits for its value. -/
  pending : Option Setting := none
  /-- Whether all words are plain from here on. -/
  plainOnly : Bool := false

namespace Reading

/-- A change of the options that stand here. -/
def changeOptions (r : Reading) (change : Options → Options) : Reading :=
  if r.verb.isSome then { r with after := change r.after }
  else { r with before := change r.before }

/-- The options that stand here. -/
def options (r : Reading) : Options := if r.verb.isSome then r.after else r.before

/-- The value of an option. -/
def assign (r : Reading) (s : Setting) (value : String) : Except Misuse Reading :=
  let r := { r with pending := none }
  match s with
  | .config =>
    if value = "" then .error (.missingValue s.title)
    else if r.options.config.isSome then .error (.repeated s.title)
    else .ok (r.changeOptions fun o => { o with config := some value })
  | .format =>
    match Format.parse? value with
    | none => .error (.invalidValue s.title value)
    | some format =>
      if r.options.format.isSome then .error (.repeated s.title)
      else .ok (r.changeOptions fun o => { o with format := some format })
  | .file =>
    if r.file.isSome then .error (.repeated s.title) else .ok { r with file := some value }

/-- A word that is no option: the command, or a name. -/
def addPlain (r : Reading) (s : String) : Except Misuse Reading :=
  match r.verb with
  | none =>
    if r.plainOnly then .error (.unexpected s)
    else
      match Verb.parse? s with
      | some verb => .ok { r with verb := some verb }
      | none => .error (.unexpected s)
  | some verb =>
    if verb = .check ∨ r.names = [] then .ok { r with names := s :: r.names }
    else .error (.unexpected s)

/-- What has been asked for. -/
def finish (r : Reading) : Except Misuse Request :=
  match r.pending with
  | some s => .error (.missingValue s.title)
  | none =>
    let options := r.before.override r.after
    match r.verb, r.names with
    | none, _ => .error .missingCommand
    | some .check, names => .ok (.invoke ⟨options, .check names.reverse r.file⟩)
    | some .explain, [name] => .ok (.invoke ⟨options, .explain name⟩)
    | some .tokens, [name] => .ok (.invoke ⟨options, .tokens name⟩)
    | some .render, [name] => .ok (.invoke ⟨options, .render name⟩)
    | some _, _ => .error .missingName

/-- What the rest of the words asks for. -/
def addWords (r : Reading) : List Word → Except Misuse (Reading ⊕ Request)
  | [] => .ok (.inl r)
  | w :: words =>
    match r.pending, w with
    | some s, .plain value => do (← r.assign s value).addWords words
    | some s, _ => .error (.missingValue s.title)
    | none, .endOfOptions => addWords { r with plainOnly := true } words
    | none, .plain s =>
      if s = "help" ∧ r.verb = none ∧ r.plainOnly = false then .ok (.inr .help)
      else do (← r.addPlain s).addWords words
    | none, .version =>
      if r.verb.isSome then .error (.unexpected "--version") else .ok (.inr .version)
    | none, .help => .ok (.inr .help)
    | none, .verbose =>
      (r.changeOptions fun o => { o with verbosity := o.verbosity + 1 }).addWords words
    | none, .setting s value =>
      if s = .file ∧ r.verb ≠ some .check then .error (.unexpected s.title)
      else
        match value with
        | some value => do (← r.assign s value).addWords words
        | none => addWords { r with pending := some s } words
    | none, .unknown s => .error (.unexpected s)

/-- What the rest of the arguments asks for. -/
def addArguments (r : Reading) : List String → Except Misuse Request
  | [] => r.finish
  | argument :: arguments => do
    let words := if r.plainOnly then [.plain argument] else Word.ofArgument argument
    match ← r.addWords words with
    | .inl r => r.addArguments arguments
    | .inr request => return request

end Reading

/-- What the arguments ask for. -/
def parseArguments (arguments : List String) : Except Misuse Request :=
  ({} : Reading).addArguments arguments

end DerivedQuery.Cli
