import DerivedQuery.Token

/-!
# Modes

A mode says how far a name has been read, and so which tokens may follow. The table of modes is
the grammar of method names.

* `Mode.expected`, `Mode.accepts`: the categories that may follow;
* `Mode.afterAction`, `Mode.next?`: where a token leads, unless it is refused;
* `Mode.pathMode?`: where a path leads, whose keywords end its segments.
-/

namespace DerivedQuery

/-- How far a name has been read. -/
inductive Mode where
  /-- Before the action, and after a preamble. -/
  | initial
  /-- After an action that takes a projection. -/
  | narrow
  /-- After an action that takes a projection or `All`. -/
  | wide
  /-- After an action on many records, which says at once which. -/
  | bulk
  /-- After `First` and its number. -/
  | limited
  /-- After `Distinct`. -/
  | distinct
  /-- After an aggregate, which needs a property. -/
  | aggregate
  /-- Within the path of the projection. -/
  | projected
  /-- After `All`. -/
  | everything
  /-- After `By` or a connective, which need a property. -/
  | criterionStart
  /-- Within the path of a condition. -/
  | criterion
  /-- After `Not`. -/
  | negated
  /-- After `IgnoreCase`. -/
  | caseless
  /-- After `Not` and `IgnoreCase`. -/
  | negatedCaseless
  /-- After `IgnoreCase` and `Not`. -/
  | caselessNegated
  /-- After an operator. -/
  | compared
  /-- After `OrderBy` or the separator of order items, which need a property. -/
  | orderStart
  /-- Within the path of an order item. -/
  | ordered
  /-- After a direction. -/
  | directed
  /-- After the end of the name. -/
  | done
  deriving DecidableEq, Repr

namespace Mode

/-- Every mode. -/
def every : List Mode :=
  [.initial, .narrow, .wide, .bulk, .limited, .distinct, .aggregate, .projected, .everything,
    .criterionStart, .criterion, .negated, .caseless, .negatedCaseless, .caselessNegated,
    .compared, .orderStart, .ordered, .directed, .done]

theorem mem_every (m : Mode) : m ∈ every := by cases m <;> decide

/-- The name of the mode in a log line. -/
def title : Mode → String
  | initial => "Initial"
  | narrow => "Projection"
  | wide => "AllProjection"
  | bulk => "ModeBy"
  | limited => "FirstCount"
  | distinct => "Distinct"
  | aggregate => "AggregateTarget"
  | projected => "ProjectionProperty"
  | everything => "AfterAll"
  | criterionStart => "CriteriaStart"
  | criterion => "CriteriaProperty"
  | negated => "Not"
  | caseless => "IgnoreCase"
  | negatedCaseless => "NotIgnoreCase"
  | caselessNegated => "IgnoreCaseNot"
  | compared => "AfterOperator"
  | orderStart => "OrderStart"
  | ordered => "OrderProperty"
  | directed => "AfterDirection"
  | done => "Done"

/-- The categories that may follow, in the order in which a diagnostic lists them. -/
def expected : Mode → List Category
  | initial => [.action]
  | narrow => [.first, .distinct, .aggregate, .property, .criteria, .ordering, .finish]
  | wide => [.first, .distinct, .aggregate, .all, .property, .criteria, .ordering, .finish]
  | bulk => [.all, .criteria]
  | limited => [.distinct, .property, .criteria, .ordering, .finish]
  | distinct => [.property, .criteria, .ordering, .finish]
  | aggregate | criterionStart | orderStart => [.property]
  | projected => [.separator, .criteria, .ordering, .finish]
  | everything => [.ordering, .finish]
  | criterion =>
    [.separator, .negation, .ignoreCase, .operator, .connective, .ordering, .finish]
  | negated => [.ignoreCase, .operator, .connective, .ordering]
  | caseless => [.negation, .operator, .connective, .ordering, .finish]
  | negatedCaseless => [.operator, .connective, .ordering, .finish]
  | caselessNegated => [.operator, .connective, .ordering]
  | compared => [.connective, .ordering, .finish]
  | ordered => [.separator, .direction, .finish]
  | directed => [.property, .separator, .finish]
  | done => []

/-- Whether a token of the category may follow. -/
def accepts (m : Mode) (c : Category) : Bool := m.expected.contains c

/-- The mode after an action. -/
def afterAction : Action → Mode
  | .exists | .count | .get => narrow
  | .find | .list | .stream => wide
  | .update | .delete => bulk

/-- The mode after a token, `none` when the token may not follow. -/
def next? (m : Mode) : Kind → Option Mode
  | .preamble => if m = initial then some initial else none
  | .action a => if m = initial then some (afterAction a) else none
  | .all => if m.accepts .all then some everything else none
  | .first _ => if m.accepts .first then some limited else none
  | .distinct => if m.accepts .distinct then some distinct else none
  | .aggregate _ => if m.accepts .aggregate then some aggregate else none
  | .criteria => if m.accepts .criteria then some criterionStart else none
  | .ordering => if m.accepts .ordering then some orderStart else none
  | .pathStart =>
    match m with
    | narrow | wide | limited | distinct | aggregate => some projected
    | criterionStart => some criterion
    | orderStart | directed => some ordered
    | _ => none
  | .pathPart =>
    match m with
    | projected | criterion | ordered => some m
    | _ => none
  | .separator =>
    match m with
    | projected | criterion | ordered => some m
    | directed => some orderStart
    | _ => none
  | .negation =>
    match m with
    | criterion => some negated
    | caseless => some caselessNegated
    | _ => none
  | .ignoreCase =>
    match m with
    | criterion => some caseless
    | negated => some negatedCaseless
    | _ => none
  | .operator _ => if m.accepts .operator then some compared else none
  | .connective _ => if m.accepts .connective then some criterionStart else none
  | .direction _ => if m.accepts .direction then some directed else none
  | .finish => if m.accepts .finish then some done else none

/-- The mode within a path that starts here. The keywords it accepts end a segment. -/
def pathMode? (m : Mode) : Option Mode := m.next? .pathStart

end Mode

end DerivedQuery
