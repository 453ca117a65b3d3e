import DerivedQuery.Vocabulary

/-!
# Queries

What a method name says: an action, the shape of its result, the conditions in the order in which
their parameters are bound, and the order of the records.

* `Path`: a property or a property of a property, never empty;
* `Projection`, `Condition`, `CriteriaItem`, `OrderItem`;
* `Query`, `Query.parameterCount`.
-/

namespace DerivedQuery

/-! ## Paths -/

/-- A property reached through its segments. There is at least one, and none is empty. -/
structure Path where
  segments : List Text
  segments_ne_nil : segments ≠ []
  segment_ne_nil : ∀ s ∈ segments, s ≠ []
  deriving DecidableEq

namespace Path

/-- The path with the given segments, unless there is none or one is empty. -/
def ofSegments? (segments : List Text) : Option Path :=
  if h : segments ≠ [] ∧ ∀ s ∈ segments, s ≠ [] then some ⟨segments, h.1, h.2⟩ else none

theorem ofSegments?_eq_some_iff {segments : List Text} {p : Path} :
    ofSegments? segments = some p ↔ p.segments = segments := by
  unfold ofSegments?
  split
  · next h =>
    cases p
    simp [eq_comm]
  · next h =>
    simp only [reduceCtorEq, false_iff]
    rintro rfl
    exact h ⟨p.segments_ne_nil, p.segment_ne_nil⟩

/-- The number of segments. -/
def length (p : Path) : Nat := p.segments.length

theorem length_pos (p : Path) : 0 < p.length := List.length_pos_iff.2 p.segments_ne_nil

/-- The segments with dots between them. -/
def dotted (p : Path) : Text := ['.'].intercalate p.segments

end Path

/-! ## Clauses -/

/-- The shape of the result. -/
structure Projection where
  kind : ProjectionKind
  /-- The greatest number of records. -/
  count : Option Nat := none
  distinct : Bool := false
  /-- The property that is read or folded. -/
  property : Option Path := none
  deriving DecidableEq

namespace Projection

/-- At most `n` records. -/
def first (n : Nat) : Projection := { kind := .first, count := some n }

/-- Every record once. -/
def distinctRecords : Projection := { kind := .distinct, distinct := true }

/-- The values of one property. -/
def ofProperty (p : Path) : Projection := { kind := .property, property := some p }

/-- The values of one property, folded. -/
def aggregate (k : ProjectionKind) (p : Path) : Projection := { kind := k, property := some p }

def withDistinct (r : Projection) : Projection := { r with distinct := true }

def withProperty (r : Projection) (p : Path) : Projection := { r with property := some p }

end Projection

/-- One comparison. -/
structure Condition where
  property : Path
  operator : Operator := .default
  negated : Bool := false
  ignoreCase : Bool := false
  deriving DecidableEq

namespace Condition

def withOperator (c : Condition) (o : Operator) : Condition := { c with operator := o }

def negate (c : Condition) : Condition := { c with negated := true }

def ignoringCase (c : Condition) : Condition := { c with ignoreCase := true }

end Condition

/-- A condition and how it is joined to the one before it; the first one is joined to none. -/
structure CriteriaItem where
  connective : Option Connective
  condition : Condition
  deriving DecidableEq

/-- One key of the order of the records. -/
structure OrderItem where
  property : Path
  direction : Direction := .default
  deriving DecidableEq

/-! ## Queries -/

/-- A query. -/
structure Query where
  action : Action
  projection : Option Projection := none
  criteria : List CriteriaItem := []
  ordering : List OrderItem := []
  deriving DecidableEq

namespace Query

/-- Whether the query changes many records at once. -/
def isBulk (q : Query) : Bool := q.action.isBulk

/-- The conditions, in the order in which their parameters are bound. -/
def conditions (q : Query) : List Condition := q.criteria.map CriteriaItem.condition

/-- The number of parameters that the conditions bind together. -/
def parameterCount (q : Query) : Nat :=
  q.conditions.foldr (fun c n => c.operator.parameterCount + n) 0

end Query

end DerivedQuery
