import DerivedQuery.Blank
import DerivedQuery.Cli.Arguments
import DerivedQuery.Cli.Screen
import DerivedQuery.Directory
import DerivedQuery.Log
import DerivedQuery.SettingsFile

/-!
# The program

What the program writes, as a function of its arguments and of what it finds around it.

* `World`: variables, files, standard input;
* `World.settings`: where the settings come from;
* `listedNames`, `World.names`: the names in a file;
* `explain`, `showTokens`, `check`, `render`: the commands;
* `run`: the whole program.
-/

namespace DerivedQuery.Cli

/-- What the program finds around it. -/
structure World where
  /-- The variables of the environment. -/
  var? : String → Option String
  /-- What a path leads to. -/
  entry : String → Entry
  stdin : ByteArray
  /-- Whether standard output is a terminal. -/
  isTerminal : Bool

/-- One thing that is written. -/
inductive Line where
  | out (s : String)
  | err (s : String)
  | event (e : Log.Event)

/-- What a command writes, and whether it accepts every name. -/
structure Outcome where
  lines : List Line
  isAccepted : Bool

/-- What the program writes, and its exit code. -/
structure Output where
  exit : Nat
  stdout : String
  stderr : String
  deriving DecidableEq, Repr

/-! ## Surroundings -/

namespace World

variable (w : World)

/-- Whether a variable is set, other than to zero. -/
def isOn (name : String) : Option Bool := (w.var? name).map (· != "0")

/-- Colours are wanted if they are forced, and on a terminal unless they are refused. -/
def wantsColors : Bool :=
  if w.isOn "CLICOLOR_FORCE" = some true then true
  else if (w.var? "NO_COLOR").isSome then false
  else (w.isOn "CLICOLOR").getD true && w.isTerminal

/-- How lines are shown. -/
def screen : Screen := { colored := w.wantsColors }

/-- A valid variable with directives wins over the options. -/
def filter (options : Options) : Log.Filter :=
  match (w.var? "QBMN_LOG").bind fun s => Log.Filter.parse? s.toList with
  | some f => f
  | none => Log.Filter.ofVerbosity options.verbosity

end World

/-- A path with one name more. -/
def joinPath (path name : String) : String :=
  if path.endsWith "/" then path ++ name else path ++ "/" ++ name

/-! ## Settings -/

namespace World

variable (w : World)

/-- The directory for settings. A relative one is not taken from the variable for it. -/
def settingsDirectory? : Option String :=
  match w.var? "XDG_CONFIG_HOME" with
  | some path => if path.startsWith "/" then some path else fromHome
  | none => fromHome
where
  fromHome := ((w.var? "HOME").filter (· ≠ "")).map fun home => joinPath home ".config"

/-- The file for settings that none has been named for. -/
def defaultPath? : Option String :=
  w.settingsDirectory?.map fun path => joinPath (joinPath path "qbmn") "config.toml"

/-- The path of a file for settings that has been named. -/
def namedPath? (options : Options) : Option String := options.config.or (w.var? "QBMN_CONFIG")

/-- The settings in a file, or why there are none. -/
def load (path : String) : Except String Settings :=
  let e := w.entry path
  if e.isPresent then
    match e.read with
    | .error problem => .error s!"IO error: {problem}: {problem}"
    | .ok text =>
      match Settings.ofText? text with
      | some s => .ok s
      | none =>
        let problem := "TOML parse error"
        .error s!"Invalid configuration file: {problem}: {problem}"
  else .error s!"Configuration error: {path} not found"

/-- The settings and what is told about them. A file that has been named has to be there. -/
def settings (options : Options) : Except String (Settings × List Log.Event) :=
  match w.namedPath? options with
  | some path =>
    match w.load path with
    | .ok s => .ok (s, [Log.loaded path s, Log.inForce s])
    | .error problem => .error s!"Failed to load config {path}: {problem}"
  | none =>
    match w.defaultPath?.filter fun path => (w.entry path).isPresent with
    | none => .ok ({}, [Log.inForce {}])
    | some path =>
      match w.load path with
      | .ok s => .ok (s, [Log.loaded path s, Log.inForce s])
      | .error problem => .error s!"Failed to load user config: {problem}"

end World

/-! ## Names -/

/-- The names in a text: one a line, without the white space around them. Empty lines and those
that begin with a number sign hold none. -/
def listedNames (text : Text) : List Text :=
  ((splitLines text).map trim).filter fun line => line ≠ [] ∧ line.head? ≠ some '#'

/-- The names in a file; a dash stands for standard input. -/
def World.names (w : World) (file : String) : Except String (List Text) :=
  let (e, title) := if file = "-" then (Entry.file w.stdin, "stdin") else (w.entry file, file)
  match e.read with
  | .ok text => .ok (listedNames text)
  | .error problem => .error s!"Failed to read {title}: {problem}"

/-! ## Commands -/

section Commands

variable (screen : Screen) (settings : Settings) (format : Format)

/-- Writes why a name is rejected. -/
def reject (name : Text) (d : Diagnostic) : List Line :=
  match format with
  | .json => [.out (diagnosticJson name d).pretty]
  | .table => (screen.diagnostic name d).map .err

/-- Shows the query of a name. -/
def explain (name : Text) : Outcome :=
  let events := (Log.ofParse settings name).map Line.event
  match parse settings name with
  | .error d => ⟨events ++ reject screen format name d, false⟩
  | .ok q =>
    match format with
    | .json => ⟨events ++ [.out q.toJson.pretty], true⟩
    | .table => ⟨events ++ (screen.query name q).map .out, true⟩

/-- Shows the tokens of a name. -/
def showTokens (name : Text) : Outcome :=
  let events := (Log.ofScan settings name).map Line.event
  match tokenize settings name with
  | .error d => ⟨events ++ reject screen format name d, false⟩
  | .ok ts =>
    match format with
    | .json => ⟨events ++ [.out (Json.array (ts.map Token.toJson)).pretty], true⟩
    | .table => ⟨events ++ (screen.tokens ts).map .out, true⟩

/-- Tells which names are accepted. -/
def check (names : List Text) : Outcome :=
  let verdicts : List Verdict := names.map fun name => ⟨name, parse settings name⟩
  let events := names.flatMap fun name => (Log.ofParse settings name).map Line.event
  let lines :=
    match format with
    | .json => [(verdictsJson verdicts).pretty]
    | .table => screen.verdicts verdicts
  ⟨events ++ lines.map .out, verdicts.all Verdict.isAccepted⟩

/-- Shows the canonical form of a name. -/
def render (name : Text) : Outcome :=
  let events := (Log.ofParse settings name).map Line.event
  match parse settings name with
  | .error d => ⟨events ++ reject screen format name d, false⟩
  | .ok q =>
    match format with
    | .json => ⟨events ++ [.out (canonicalJson name q).pretty], true⟩
    | .table => ⟨events ++ [.out (String.ofList q.canonical)], true⟩

end Commands

/-- The names that are to be checked: those given as arguments, then those in the file. -/
def World.namesToCheck (w : World) (names : List String) (file : Option String) :
    Except String (List Text) :=
  match (file.map w.names).getD (.ok []) with
  | .error problem => .error problem
  | .ok listed =>
    let names := names.map String.toList ++ listed
    if names = [] then .error "No method names given. Pass names or --file." else .ok names

/-- What a command writes, or why it cannot be carried out. -/
def World.perform (w : World) (settings : Settings) (format : Format) (command : Command) :
    Except String Outcome :=
  match command with
  | .explain name => .ok (explain w.screen settings format name.toList)
  | .tokens name => .ok (showTokens w.screen settings format name.toList)
  | .render name => .ok (render w.screen settings format name.toList)
  | .check names file =>
    (w.namesToCheck names file).map (check w.screen settings format)

/-! ## The whole program -/

/-- A line of standard output. -/
def Line.out? : Line → Option String
  | .out s => some s
  | _ => none

/-- A line of standard error; an event is written if the filter shows it. -/
def Line.err? (f : Log.Filter) : Line → Option String
  | .err s => some s
  | .event e => if f.shows e then some e.line else none
  | .out _ => none

/-- Lines as one text. -/
def joinLines (lines : List String) : String :=
  lines.foldl (fun text line => text ++ line ++ "\n") ""

/-- What is written in the end. -/
def conclude (f : Log.Filter) (lines : List Line) (exit : Nat) : Output where
  exit := exit
  stdout := joinLines (lines.filterMap Line.out?)
  stderr := joinLines (lines.filterMap (Line.err? f))

/-- Carries out a command. -/
def World.invoke (w : World) (i : Invocation) : Output :=
  let fail (lines : List Line) (problem : String) :=
    conclude (w.filter i.options) (lines ++ [.err (w.screen.failure problem)]) 1
  match w.settings i.options with
  | .error problem => fail [] problem
  | .ok (settings, events) =>
    let lines := events.map Line.event
    match w.perform settings (i.options.format.getD .table) i.command with
    | .error problem => fail lines problem
    | .ok o =>
      conclude (w.filter i.options) (lines ++ o.lines) (if o.isAccepted then 0 else 1)

/-- The name and the version of the program. -/
def versionLine : String := "qbmn 0.1.0"

/-- How the program is used. -/
def usageLine : String := "Usage: qbmn [OPTIONS] <COMMAND>"

/-- The whole program. -/
def World.run (w : World) (arguments : List String) : Output :=
  let refuse (message : String) : Output :=
    { exit := 2, stdout := "", stderr := joinLines ["error: " ++ message, "", usageLine] }
  match parseArguments arguments with
  | .error misuse => refuse misuse.message
  | .ok .version => { exit := 0, stdout := joinLines [versionLine], stderr := "" }
  | .ok .help => { exit := 0, stdout := joinLines [usageLine], stderr := "" }
  | .ok (.invoke i) =>
    if w.namedPath? i.options = some "" then
      refuse (Misuse.missingValue Setting.config.title).message
    else w.invoke i

/-- The variables that the program looks at. -/
def variableNames : List String :=
  ["CLICOLOR", "CLICOLOR_FORCE", "HOME", "NO_COLOR", "QBMN_CONFIG", "QBMN_LOG", "XDG_CONFIG_HOME"]

/-- The paths that the program looks at. -/
def World.paths (w : World) (arguments : List String) : List String :=
  match parseArguments arguments with
  | .ok (.invoke i) =>
    let file :=
      match i.command with
      | .check _ file => file.toList
      | _ => []
    (w.namedPath? i.options).toList ++ w.defaultPath?.toList ++ file.filter (· ≠ "-")
  | _ => []

/-- Whether the program reads standard input. -/
def readsStdin (arguments : List String) : Bool :=
  match parseArguments arguments with
  | .ok (.invoke i) =>
    match i.command with
    | .check _ file => file == some "-"
    | _ => false
  | _ => false

end DerivedQuery.Cli
