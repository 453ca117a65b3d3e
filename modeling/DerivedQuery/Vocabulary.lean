import DerivedQuery.Text

/-!
# The vocabulary of method names

The words a method name is made of, each with its keyword (as written in the name) and its label
(as written in a report).

* `Action`: the verb, with its two keywords;
* `ProjectionKind`: how the result is shaped;
* `Operator`: the comparison of a condition and the parameters it binds;
* `Connective`, `Direction`.
-/

namespace DerivedQuery

/-! ## Actions -/

/-- The verb of a query. -/
inductive Action where
  /-- One record or none. -/
  | find
  /-- Exactly one record. -/
  | get
  /-- How many records match. -/
  | count
  /-- Whether a record matches. -/
  | exists
  /-- The records, one after the other. -/
  | stream
  /-- The records, collected. -/
  | list
  /-- Change all matching records. -/
  | update
  /-- Remove all matching records. -/
  | delete
  deriving DecidableEq, Repr

namespace Action

/-- All actions, in the order in which a name is tested for them. -/
def all : List Action := [.exists, .count, .get, .find, .list, .stream, .update, .delete]

theorem mem_all (a : Action) : a ∈ all := by cases a <;> decide

/-- The keyword at the very start of a name. -/
def keyword : Action → Text
  | find => "find".toList
  | get => "get".toList
  | count => "count".toList
  | .exists => "exists".toList
  | stream => "stream".toList
  | list => "list".toList
  | update => "update".toList
  | delete => "delete".toList

/-- The keyword after a preamble. -/
def capitalized (a : Action) : Text := capitalize a.keyword

/-- Updates and deletions change many records at once; they are not ordered. -/
def isBulk : Action → Bool
  | update | delete => true
  | _ => false

/-- Whether a bare `All` may follow in place of a projection. -/
def acceptsAll : Action → Bool
  | find | list | stream => true
  | _ => false

/-- The action in a report. -/
def label : Action → String
  | find => "FIND"
  | get => "GET"
  | count => "COUNT"
  | .exists => "EXISTS"
  | stream => "STREAM"
  | list => "LIST"
  | update => "UPDATE"
  | delete => "DELETE"

/-- The action in a listing of tokens. -/
def title (a : Action) : String := String.ofList a.capitalized

end Action

/-! ## Projections -/

/-- How the result is shaped. -/
inductive ProjectionKind where
  | distinct
  | first
  | max
  | min
  | sum
  | avg
  /-- The values of one property. -/
  | property
  deriving DecidableEq, Repr

namespace ProjectionKind

def all : List ProjectionKind := [.distinct, .first, .max, .min, .sum, .avg, .property]

theorem mem_all (k : ProjectionKind) : k ∈ all := by cases k <;> decide

/-- Whether the kind folds the values of a property into one. -/
def isAggregate : ProjectionKind → Bool
  | max | min | sum | avg => true
  | _ => false

/-- The kind in a listing of tokens. -/
def title : ProjectionKind → String
  | distinct => "Distinct"
  | first => "First"
  | max => "Max"
  | min => "Min"
  | sum => "Sum"
  | avg => "Avg"
  | property => "Property"

/-- The keyword; a bare property has none. -/
def keyword? : ProjectionKind → Option Text
  | property => none
  | k => some k.title.toList

/-- The kind in a report. -/
def label : ProjectionKind → String
  | distinct => "DISTINCT"
  | first => "FIRST"
  | max => "MAX"
  | min => "MIN"
  | sum => "SUM"
  | avg => "AVG"
  | property => "PROPERTY"

end ProjectionKind

/-! ## Operators -/

/-- How a condition compares its property. -/
inductive Operator where
  | after
  | before
  | contains
  | endsWith
  | startsWith
  | equal
  | lessThan
  | lessThanEqual
  | greaterThan
  | greaterThanEqual
  | between
  | like
  | isIn
  | isEmpty
  | isNull
  | isTrue
  | isFalse
  deriving DecidableEq, Repr

namespace Operator

def all : List Operator :=
  [.after, .before, .contains, .endsWith, .startsWith, .equal, .lessThan, .lessThanEqual,
    .greaterThan, .greaterThanEqual, .between, .like, .isIn, .isEmpty, .isNull, .isTrue, .isFalse]

theorem mem_all (o : Operator) : o ∈ all := by cases o <;> decide

/-- A condition without an operator tests for equality. -/
def default : Operator := .equal

/-- The operator in a listing of tokens. -/
def title : Operator → String
  | after => "After"
  | before => "Before"
  | contains => "Contains"
  | endsWith => "EndsWith"
  | startsWith => "StartsWith"
  | equal => "Equal"
  | lessThan => "LessThan"
  | lessThanEqual => "LessThanEqual"
  | greaterThan => "GreaterThan"
  | greaterThanEqual => "GreaterThanEqual"
  | between => "Between"
  | like => "Like"
  | isIn => "In"
  | isEmpty => "Empty"
  | isNull => "Null"
  | isTrue => "True"
  | isFalse => "False"

/-- The keyword in a name. -/
def keyword (o : Operator) : Text := o.title.toList

/-- The number of parameters a comparison binds. -/
def parameterCount : Operator → Nat
  | isEmpty | isNull | isTrue | isFalse => 0
  | between => 2
  | _ => 1

/-- The operator in a report. -/
def label : Operator → String
  | after => "AFTER"
  | before => "BEFORE"
  | contains => "CONTAINS"
  | endsWith => "ENDS_WITH"
  | startsWith => "STARTS_WITH"
  | equal => "EQUAL"
  | lessThan => "LESS_THAN"
  | lessThanEqual => "LESS_THAN_EQUAL"
  | greaterThan => "GREATER_THAN"
  | greaterThanEqual => "GREATER_THAN_EQUAL"
  | between => "BETWEEN"
  | like => "LIKE"
  | isIn => "IN"
  | isEmpty => "EMPTY"
  | isNull => "NULL"
  | isTrue => "TRUE"
  | isFalse => "FALSE"

end Operator

/-! ## Connectives -/

/-- How a condition is joined to the one before it. -/
inductive Connective where
  | and
  | or
  deriving DecidableEq, Repr

namespace Connective

def all : List Connective := [.and, .or]

theorem mem_all (k : Connective) : k ∈ all := by cases k <;> decide

/-- The connective in a listing of tokens. -/
def title : Connective → String
  | .and => "And"
  | .or => "Or"

/-- The keyword in a name. -/
def keyword (k : Connective) : Text := k.title.toList

/-- The connective in a report. -/
def label : Connective → String
  | .and => "AND"
  | .or => "OR"

end Connective

/-! ## Directions -/

/-- The direction of an order item. -/
inductive Direction where
  | asc
  | desc
  deriving DecidableEq, Repr

namespace Direction

def all : List Direction := [.asc, .desc]

theorem mem_all (d : Direction) : d ∈ all := by cases d <;> decide

/-- An order item without a direction ascends. -/
def default : Direction := .asc

/-- The direction in a listing of tokens. -/
def title : Direction → String
  | asc => "Asc"
  | desc => "Desc"

/-- The keyword in a name. -/
def keyword (d : Direction) : Text := d.title.toList

/-- The direction in a report. -/
def label : Direction → String
  | asc => "ASC"
  | desc => "DESC"

end Direction

end DerivedQuery
