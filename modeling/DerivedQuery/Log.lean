import DerivedQuery.Alphanumeric
import DerivedQuery.Blank
import DerivedQuery.Canonical
import DerivedQuery.Derivation
import DerivedQuery.Quoted

/-!
# Log

What the program tells about its work, and which of it is shown.

* `Log.Level`, `Log.Event`, `Log.Event.line`;
* `Log.Filter`, `Log.Filter.parse?`, `Log.Filter.shows`: the levels asked for;
* `Log.ofMove`, `Log.ofParse`: the events of a scan and of a derivation.
-/

namespace DerivedQuery.Log

/-! ## Events -/

/-- How much detail is shown; an event is never of the level `off`. -/
inductive Level where
  | off
  | error
  | warn
  | info
  | debug
  | trace
  deriving DecidableEq, Repr

namespace Level

/-- The place in the order of the levels. -/
def rank : Level → Nat
  | off => 0
  | error => 1
  | warn => 2
  | info => 3
  | debug => 4
  | trace => 5

/-- The name of the level. -/
def title : Level → String
  | off => "OFF"
  | error => "ERROR"
  | warn => "WARN"
  | info => "INFO"
  | debug => "DEBUG"
  | trace => "TRACE"

def all : List Level := [off, error, warn, info, debug, trace]

/-- The number that a text of digits stands for, which may begin with a plus sign. -/
def number? (s : Text) : Option Nat :=
  let digits := if s.head? = some '+' then s.tail else s
  if digits ≠ [] ∧ digits.all Char.isDigit then some (Nat.ofDigitChars 10 digits 0) else none

/-- The level with the name, in either case, or with the place in the order. -/
def parse? (s : Text) : Option Level :=
  all.find? fun l => s.map Char.toUpper = l.title.toList ∨ number? s = some l.rank

end Level

/-- Something that happened. -/
structure Event where
  level : Level
  /-- The part of the program that tells it. -/
  target : Text
  message : String
  fields : List (String × String)

/-- The line of an event. -/
def Event.line (e : Event) : String :=
  e.fields.foldl (fun line field => line ++ " " ++ field.1 ++ "=" ++ field.2)
    (e.level.title ++ " " ++ String.ofList e.target ++ ": " ++ e.message)

/-! ## Filters -/

/-- A level for the targets that begin with a text. -/
structure Directive where
  target : Text
  level : Level

/-- The directives that choose what is shown. -/
structure Filter where
  directives : List Directive

namespace Directive

/-- What a directive begins with. -/
def opens (c : Char) : Bool := isAlphanumeric c || c == '-' || c == ':' || c == '_'

/-- A directive without an equals sign: a level, or a target that shows all. -/
def ofWord (s : Text) : Directive :=
  match Level.parse? s with
  | some level => ⟨[], level⟩
  | none => ⟨s, .trace⟩

/-- A directive with an equals sign: a target with its level. A target without a level shows all. -/
def ofPair? (target level : Text) : Option Directive :=
  if level = [] then some ⟨target, .trace⟩
  else (Level.parse? level).map fun level => ⟨target, level⟩

/-- A directive: a level, a target, or a target with its level. After its first character a target
is any text without a bracket. White space is not skipped: a word with some at either end is a
target, and in front of a target with its level it is an error. -/
def parse? (s : Text) : Option Directive :=
  match s.dropWhile isWhite, s.span (· ≠ '=') with
  | [], _ => none
  | c :: _, (word, rest) =>
    if !opens c || word.contains '[' then none
    else
      match rest with
      | [] => some (ofWord word)
      | _ :: level => if s.head?.any isWhite then none else ofPair? word level

end Directive

namespace Filter

/-- The pieces between commas. -/
def pieces : Text → List Text
  | [] => [[]]
  | c :: cs =>
    if c = ',' then [] :: pieces cs
    else
      match pieces cs with
      | [] => [[c]]
      | piece :: rest => (c :: piece) :: rest

/-- The filter that shows a level of every target. -/
def ofLevel (level : Level) : Filter := ⟨[⟨[], level⟩]⟩

/-- A list of directives with commas between them; of an empty one only errors are shown. -/
def parse? (s : Text) : Option Filter :=
  match (pieces s).filter (· ≠ []) with
  | [] => some (ofLevel .error)
  | ps => (ps.mapM Directive.parse?).map fun directives => ⟨directives⟩

/-- The directive for a target: the one that names most of it, of two alike the later. -/
def directiveFor? (f : Filter) (target : Text) : Option Directive :=
  f.directives.foldl (fun best d =>
    if d.target.isPrefixOf target then
      match best with
      | some b => if b.target.length ≤ d.target.length then some d else best
      | none => some d
    else best) none

/-- Whether an event is shown. -/
def shows (f : Filter) (e : Event) : Bool :=
  match f.directiveFor? e.target with
  | some d => e.level.rank ≤ d.level.rank
  | none => false

/-- The filter that is asked for by the number of times that more detail is. -/
def ofVerbosity : Nat → Filter
  | 0 => ofLevel .warn
  | 1 => ⟨[⟨"qbmn".toList, .debug⟩]⟩
  | _ => ⟨[⟨"qbmn".toList, .trace⟩]⟩

end Filter

/-! ## What is told -/

/-- A token that has been cut. -/
def ofMove (m : Move) : Event where
  level := .trace
  target := "qbmn::lexer".toList
  message := "token"
  fields := [("kind", m.token.kind.title), ("text", quoted m.token.text),
    ("position", toString m.token.position), ("from", m.source.title), ("to", m.target.title)]

/-- The tokens of a name. -/
def ofScan (settings : Settings) (name : Text) : List Event :=
  (Scan.trace settings name).map ofMove

/-- The outcome of a derivation. -/
def ofOutcome (name : Text) : Except Diagnostic Query → Event
  | .ok q =>
    { level := .debug, target := "qbmn::parser".toList, message := "parsed method name"
      fields := [("method", quoted name), ("query", String.ofList q.canonical)] }
  | .error d =>
    { level := .debug, target := "qbmn::parser".toList, message := "rejected method name"
      fields := [("method", quoted name), ("error", d.message)] }

/-- The tokens of a name and the outcome of its derivation. -/
def ofParse (settings : Settings) (name : Text) : List Event :=
  ofScan settings name ++ [ofOutcome name (parse settings name)]

/-- The settings in a log line. -/
def settingsTitle (s : Settings) : String :=
  s!"Config \x7b parser: ParserConfig \x7b allow_zero_count: {s.allowZeroCount}, " ++
    s!"separated_order_items: {s.separatedOrderItems} \x7d \x7d"

/-- The settings have been read from a file. -/
def loaded (path : String) (s : Settings) : Event where
  level := .debug
  target := "qbmn::config".toList
  message := "loaded configuration"
  fields := [("path", path), ("config", settingsTitle s)]

/-- The settings are in force. -/
def inForce (s : Settings) : Event where
  level := .debug
  target := "qbmn".toList
  message := "using configuration"
  fields := [("config", settingsTitle s)]

end DerivedQuery.Log
