import DerivedQuery.Diagnostic
import DerivedQuery.Query

/-!
# Drafts

A draft is a query under construction. It takes the tokens of a name one by one, and closes a
condition, an order item or the projection when the token after it arrives.

* `Draft`, `Draft.add`: one token more;
* `Draft.close`: the end of a clause;
* `Draft.finish`: the query.
-/

namespace DerivedQuery

/-- The clauses of a query. -/
inductive Clause where
  | projection
  | criteria
  | ordering
  deriving DecidableEq, Repr

/-- A query under construction. -/
structure Draft where
  /-- The clause that is being read. -/
  clause : Clause := .projection
  action : Option Action := none
  projection : Option Projection := none
  /-- The segments of the path that is being read. -/
  segments : List Text := []
  connective : Option Connective := none
  negated : Bool := false
  ignoreCase : Bool := false
  operator : Option Operator := none
  criteria : List CriteriaItem := []
  ordering : List OrderItem := []
  deriving DecidableEq

namespace Draft

/-- The draft with one more segment, whose first letter is put in lower case. -/
def addSegment (d : Draft) (text : Text) : Draft :=
  if text = [] then d else { d with segments := d.segments ++ [uncapitalize text] }

/-- The path that has been read; there has to be one. -/
def path (d : Draft) (position : Nat) : Except Diagnostic Path :=
  match Path.ofSegments? d.segments with
  | some p => .ok p
  | none => .error (.unterminated position [.property])

/-- The condition on a path that has been read. -/
def condition (d : Draft) (property : Path) : Condition where
  property := property
  operator := d.operator.getD .default
  negated := d.negated
  ignoreCase := d.ignoreCase

/-- Closes a condition. -/
def closeCondition (d : Draft) (position : Nat) : Except Diagnostic Draft :=
  (d.path position).map fun property =>
    { d with
      segments := [], operator := none, negated := false, ignoreCase := false, connective := none
      criteria := d.criteria ++ [⟨d.connective, d.condition property⟩] }

/-- Closes an order item. -/
def closeOrderItem (d : Draft) (direction : Direction) (position : Nat) :
    Except Diagnostic Draft :=
  (d.path position).map fun property =>
    { d with segments := [], ordering := d.ordering ++ [⟨property, direction⟩] }

/-- Closes the projection, which may have a path. -/
def closeProjection (d : Draft) : Draft :=
  match Path.ofSegments? d.segments with
  | none => { d with segments := [] }
  | some p =>
    { d with
      segments := []
      projection := some (match d.projection with
        | some r => r.withProperty p
        | none => .ofProperty p) }

/-- Closes the clause that is being read. -/
def close (d : Draft) (position : Nat) : Except Diagnostic Draft :=
  match d.clause with
  | .projection => .ok d.closeProjection
  | .criteria => d.closeCondition position
  | .ordering => if d.segments = [] then .ok d else d.closeOrderItem .default position

/-- The draft with one more token. -/
def add (d : Draft) (t : Token) : Except Diagnostic Draft :=
  match t.kind with
  | .preamble | .all | .separator => .ok d
  | .action a => .ok { d with action := some a }
  | .first n => .ok { d with projection := some (.first n) }
  | .distinct =>
    .ok { d with
      projection := some (match d.projection with
        | some r => r.withDistinct
        | none => .distinctRecords) }
  | .aggregate k => .ok { d with projection := some { kind := k } }
  | .pathStart | .pathPart => .ok (d.addSegment t.text)
  | .criteria => (d.close t.position).map fun d => { d with clause := .criteria }
  | .ordering => (d.close t.position).map fun d => { d with clause := .ordering }
  | .negation => .ok { d with negated := true }
  | .ignoreCase => .ok { d with ignoreCase := true }
  | .operator o => .ok { d with operator := some o }
  | .connective k => (d.closeCondition t.position).map fun d => { d with connective := some k }
  | .direction r => d.closeOrderItem r t.position
  | .finish => d.close t.position

/-- The query, once all tokens have been added. -/
def finish (d : Draft) (position : Nat) : Except Diagnostic Query :=
  match d.action with
  | none => .error (.unterminated position [.action])
  | some action =>
    .ok { action, projection := d.projection, criteria := d.criteria, ordering := d.ordering }

end Draft

end DerivedQuery
