import DerivedQuery.Diagnostic
import DerivedQuery.Json
import DerivedQuery.Query

/-!
# Reports as JSON

Queries, tokens and diagnostics as JSON values.

* `Query.toJson`, with `Path.toJson`, `Projection.toJson`, `Condition.toJson`, …;
* `Token.toJson`, `Kind.toJson`;
* `Diagnostic.toJson`.
-/

namespace DerivedQuery

/-! ## Queries -/

/-- A path is the list of its segments. -/
def Path.toJson (p : Path) : Json := .array (p.segments.map Json.text)

/-- What a projection does not have is left out. -/
def Projection.toJson (r : Projection) : Json :=
  .object <| [("kind", .string r.kind.label)] ++
    (r.count.map fun n => ("count", Json.number n)).toList ++
    [("distinct", .bool r.distinct)] ++
    (r.property.map fun p => ("property", p.toJson)).toList

def Condition.toJson (c : Condition) : Json :=
  .object [("property", c.property.toJson), ("operator", .string c.operator.label),
    ("negated", .bool c.negated), ("ignore_case", .bool c.ignoreCase)]

def CriteriaItem.toJson (i : CriteriaItem) : Json :=
  .object [("connective", (i.connective.map fun k => Json.string k.label).getD .null),
    ("condition", i.condition.toJson)]

def OrderItem.toJson (i : OrderItem) : Json :=
  .object [("property", i.property.toJson), ("direction", .string i.direction.label)]

/-- A list of items under a key, left out when it is empty. -/
def unlessEmpty (key : String) (items : List Json) : List (String × Json) :=
  if items.isEmpty then [] else [(key, .array items)]

/-- Clauses that a query does not have are left out. -/
def Query.toJson (q : Query) : Json :=
  .object <| [("action", .string q.action.label)] ++
    (q.projection.map fun r => ("projection", r.toJson)).toList ++
    unlessEmpty "criteria" (q.criteria.map CriteriaItem.toJson) ++
    unlessEmpty "ordering" (q.ordering.map OrderItem.toJson)

/-! ## Tokens -/

/-- A kind is its name, or its name with the word it carries. -/
def Kind.toJson (k : Kind) : Json :=
  let carrying (word : Json) : Json := .object [(k.head, word)]
  match k with
  | .action a => carrying (.string a.label)
  | .first n => carrying (.number n)
  | .aggregate p => carrying (.string p.label)
  | .operator o => carrying (.string o.label)
  | .connective c => carrying (.string c.label)
  | .direction d => carrying (.string d.label)
  | _ => .string k.head

def Token.toJson (t : Token) : Json :=
  .object [("kind", t.kind.toJson), ("text", .text t.text), ("position", .number t.position)]

/-! ## Diagnostics -/

/-- The cause, the position, the wording and what could have stood there. -/
def Diagnostic.toJson (d : Diagnostic) : Json :=
  .object [("kind", .string d.title), ("position", .number d.position),
    ("message", .string d.message),
    ("expected", .array (d.expected.map fun c => .string c.describe))]

end DerivedQuery
