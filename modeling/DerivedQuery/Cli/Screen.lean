import DerivedQuery.Canonical
import DerivedQuery.Derivation
import DerivedQuery.Report
import DerivedQuery.Style

/-!
# Results on the screen

The lines in which the commands show their results, as tables and as JSON.

* `Screen`: whether colours are wanted;
* `Screen.query`, `Screen.tokens`, `Screen.verdicts`, `Screen.diagnostic`: tables;
* `verdictJson`, `diagnosticJson`, `canonicalJson`: reports.
-/

namespace DerivedQuery.Cli

/-- How lines are shown. -/
structure Screen where
  /-- Whether colours are wanted. -/
  colored : Bool

/-- A name and what became of it. -/
structure Verdict where
  name : Text
  outcome : Except Diagnostic Query

namespace Verdict

/-- Whether the name is accepted. -/
def isAccepted (v : Verdict) : Bool := v.outcome.isOk

end Verdict

namespace Screen

variable (s : Screen)

/-- A text in a style. -/
def paint (style : Style) (text : String) : String := style.paint s.colored text

/-- A path in words. -/
def path (p : Path) : String := String.ofList p.dotted

/-! ## Queries -/

/-- A projection in words. -/
def projection (r : Projection) : String :=
  match r.kind.isAggregate, r.property with
  | true, some p => s!"{r.kind.label}({path p})"
  | _, _ =>
    r.kind.label ++ ((r.count.map fun n => s!"({n})").getD "") ++
      (if r.distinct ∧ r.kind ≠ .distinct then " DISTINCT" else "") ++
      (r.property.map fun p => " " ++ path p).getD ""

/-- A condition in words. -/
def condition (c : Condition) : String :=
  s.paint .white (path c.property) ++
    (if c.negated then " " ++ s.paint .red "NOT" else "") ++
    " " ++ s.paint .cyan c.operator.label ++
    if c.ignoreCase then " " ++ s.paint .dimmed "(ignore case)" else ""

/-- A line for every condition, with its connective in front. -/
def criteria (items : List CriteriaItem) : List String :=
  if items = [] then []
  else ("  " ++ s.paint .dimmed "Criteria:") :: items.map fun i =>
    let connective := (i.connective.map Connective.label).getD ""
    "    " ++ Style.yellow.paintPadded s.colored 4 connective ++ " " ++ s.condition i.condition

/-- A line for every order item. -/
def ordering (items : List OrderItem) : List String :=
  if items = [] then []
  else ("  " ++ s.paint .dimmed "Ordering:") :: items.map fun i =>
    "    • " ++ s.paint .white (path i.property) ++ " " ++ s.paint .cyan i.direction.label

/-- The clauses of a query. -/
def query (name : Text) (q : Query) : List String :=
  let projection :=
    match q.projection with
    | some r => s.paint .cyan (projection r)
    | none => s.paint .dimmed "(none)"
  [s.paint .dimmed "Method:" ++ " " ++ s.paint .yellow (String.ofList name), "",
    s.paint Style.green.emphasized "Parsed Structure:",
    "  " ++ s.paint .dimmed "Action:" ++ " " ++ s.paint .cyan q.action.label,
    "  " ++ s.paint .dimmed "Projection:" ++ " " ++ projection] ++
  s.criteria q.criteria ++ s.ordering q.ordering ++
  ["",
    "  " ++ s.paint .dimmed "Parameters:" ++ " " ++ s.paint .cyan (toString q.parameterCount),
    "  " ++ s.paint .dimmed "Canonical:" ++ " " ++ s.paint .white (String.ofList q.canonical)]

/-! ## Tokens -/

/-- A position at the right of its column. -/
def aligned (n : Nat) : String :=
  let digits := Nat.toDigits 10 n
  String.ofList (Style.padding 5 digits ++ digits)

/-- A token. -/
def token (t : Token) : String :=
  aligned t.position ++ "  " ++ Style.cyan.paintPadded s.colored 28 t.kind.title ++ " " ++
    s.paint .yellow (String.ofList t.text)

/-- A heading and a line for every token. -/
def tokens (ts : List Token) : List String :=
  let heading := Style.white.emphasized
  [heading.paintAligned s.colored 5 "Pos" ++ "  " ++ heading.paintPadded s.colored 28 "Kind" ++
      " " ++ s.paint heading "Text",
    s.paint .dimmed (String.ofList (List.replicate 50 '─'))] ++
  ts.map s.token

/-! ## Verdicts -/

/-- What became of a name. -/
def verdict (v : Verdict) : String :=
  match v.outcome with
  | .ok _ => s.paint .green "✓" ++ " " ++ String.ofList v.name
  | .error d =>
    s.paint .red "✗" ++ " " ++ String.ofList v.name ++ ": " ++ s.paint .red d.message

/-- How many of the names are accepted. -/
def summary (vs : List Verdict) : String :=
  let failed := vs.countP fun v => !v.isAccepted
  if failed = 0 then s.paint .green "✓" ++ s!" {vs.length} method name(s) OK"
  else
    s.paint .red "✗" ++ " " ++ s.paint .red (toString failed) ++
      s!" of {vs.length} method name(s) failed"

/-- A line for every name, and the summary. -/
def verdicts (vs : List Verdict) : List String := vs.map s.verdict ++ ["", s.summary vs]

/-! ## Diagnostics -/

/-- The wording of a diagnostic, and the place it points at. -/
def diagnostic (name : Text) (d : Diagnostic) : List String :=
  [s.paint Style.red.emphasized "Parse Error:" ++ " " ++ d.message,
    "  " ++ s.paint .yellow (String.ofList name),
    "  " ++ String.ofList (List.replicate d.position ' ') ++ s.paint Style.red.emphasized "^"] ++
  if d.expected = [] then []
  else ["  " ++ s.paint .dimmed "expected:" ++ " " ++ Diagnostic.listing d.expected]

/-- A failure of the program as a whole. -/
def failure (message : String) : String :=
  s.paint Style.red.emphasized "Error:" ++ " " ++ message

end Screen

/-! ## Reports -/

/-- The report on a name. -/
def verdictJson (v : Verdict) : Json :=
  match v.outcome with
  | .ok q => .object [("name", .text v.name), ("ok", .bool true), ("query", q.toJson)]
  | .error d => .object [("name", .text v.name), ("ok", .bool false), ("error", d.toJson)]

/-- The report on names, in their order. -/
def verdictsJson (vs : List Verdict) : Json := (Json.array (vs.map verdictJson)).sortKeys

/-- The report on a name that is rejected. -/
def diagnosticJson (name : Text) (d : Diagnostic) : Json :=
  (Json.object [("name", .text name), ("error", d.toJson)]).sortKeys

/-- The report on the canonical form of a name. -/
def canonicalJson (name : Text) (q : Query) : Json :=
  (Json.object [("name", .text name), ("canonical", .text q.canonical)]).sortKeys

end DerivedQuery.Cli
