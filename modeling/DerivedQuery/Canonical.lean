import DerivedQuery.Query

/-!
# Canonical names

Every query has one name that is written for it. Preambles and separators of order items are left
out, every direction is written, and equality is written only where it is negated.

* `Path.canonical`, `Condition.canonical`, `Projection.canonical`, …;
* `Query.canonical`: the name.
-/

namespace DerivedQuery

/-- The segments in upper camel case with separators between them. -/
def Path.canonical (p : Path) : Text := [separator].intercalate (p.segments.map capitalize)

/-- The words of a projection. A limit says how many records; the others are one keyword. -/
def Projection.canonical (r : Projection) : Text :=
  let words :=
    match r.kind with
    | .first =>
      "First".toList ++ Nat.toDigits 10 (r.count.getD 1) ++
        if r.distinct then "Distinct".toList else []
    | kind => kind.keyword?.getD []
  words ++ (r.property.map Path.canonical).getD []

/-- The path of a condition, its modifiers and its operator. -/
def Condition.canonical (c : Condition) : Text :=
  c.property.canonical ++ (if c.negated then "Not".toList else []) ++
    (if c.ignoreCase then "IgnoreCase".toList else []) ++
    if c.negated ∨ c.operator ≠ .equal then c.operator.keyword else []

/-- The connective and the condition. -/
def CriteriaItem.canonical (i : CriteriaItem) : Text :=
  (i.connective.map Connective.keyword).getD [] ++ i.condition.canonical

/-- The path and the direction. -/
def OrderItem.canonical (i : OrderItem) : Text := i.property.canonical ++ i.direction.keyword

namespace Query

/-- The words between the action and the conditions. Without conditions, an action that may be
followed by `All` is. -/
def canonicalScope (q : Query) : Text :=
  match q.projection with
  | some r => r.canonical
  | none =>
    if q.criteria = [] ∧ (q.action.isBulk ∨ q.action.acceptsAll) then "All".toList else []

/-- The name that is written for a query. -/
def canonical (q : Query) : Text :=
  q.action.keyword ++ q.canonicalScope ++
    (if q.criteria = [] then []
      else "By".toList ++ q.criteria.flatMap CriteriaItem.canonical) ++
    if q.ordering = [] then [] else "OrderBy".toList ++ q.ordering.flatMap OrderItem.canonical

end Query

end DerivedQuery
