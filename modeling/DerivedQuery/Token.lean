import DerivedQuery.Vocabulary

/-!
# Tokens

A method name is a sequence of tokens. A token has a kind, which may carry a word of the
vocabulary, the piece of the name it covers, and the position where that piece begins.

* `Category`: the sorts of tokens that a diagnostic speaks of;
* `Kind`, `Kind.category`, `Kind.title`;
* `Token`.
-/

namespace DerivedQuery

/-- A sort of token, in the order in which a legend lists them. -/
inductive Category where
  | action
  | all
  | first
  | digits
  | distinct
  | aggregate
  | property
  | separator
  | criteria
  | ordering
  | negation
  | ignoreCase
  | operator
  | connective
  | direction
  | finish
  deriving DecidableEq, Repr

namespace Category

/-- Every category. -/
def every : List Category :=
  [.action, .all, .first, .digits, .distinct, .aggregate, .property, .separator, .criteria,
    .ordering, .negation, .ignoreCase, .operator, .connective, .direction, .finish]

theorem mem_every (c : Category) : c ∈ every := by cases c <;> decide

/-- The name of the category. -/
def title : Category → String
  | action => "Action"
  | all => "All"
  | first => "First"
  | digits => "Digits"
  | distinct => "Distinct"
  | aggregate => "Aggregate"
  | property => "Property"
  | separator => "Separator"
  | criteria => "By"
  | ordering => "OrderBy"
  | negation => "Not"
  | ignoreCase => "IgnoreCase"
  | operator => "Operator"
  | connective => "Connective"
  | direction => "Direction"
  | finish => "End"

/-- The category as a diagnostic words it. -/
def describe : Category → String
  | action => "action keyword"
  | all => "'All'"
  | first => "'First<N>'"
  | digits => "digits"
  | distinct => "'Distinct'"
  | aggregate => "aggregate (Max, Min, Sum, Avg)"
  | property => "property name"
  | separator => "'_'"
  | criteria => "'By'"
  | ordering => "'OrderBy'"
  | negation => "'Not'"
  | ignoreCase => "'IgnoreCase'"
  | operator => "operator"
  | connective => "'And' or 'Or'"
  | direction => "'Asc' or 'Desc'"
  | finish => "end of input"

end Category

/-- What a token is, with the word it stands for. -/
inductive Kind where
  /-- Text before a capitalized action. -/
  | preamble
  | action (a : Action)
  | all
  /-- The word First and a number. -/
  | first (n : Nat)
  | distinct
  | aggregate (k : ProjectionKind)
  /-- The word By, which opens the conditions. -/
  | criteria
  /-- The word OrderBy, which opens the order. -/
  | ordering
  /-- The first segment of a path. -/
  | pathStart
  /-- A segment after a separator. -/
  | pathPart
  | separator
  | negation
  | ignoreCase
  | operator (o : Operator)
  | connective (k : Connective)
  | direction (d : Direction)
  /-- The end of the name. -/
  | finish
  deriving DecidableEq, Repr

namespace Kind

/-- The sort of token. -/
def category : Kind → Category
  | preamble | action _ => .action
  | all => .all
  | first _ => .first
  | distinct => .distinct
  | aggregate _ => .aggregate
  | criteria => .criteria
  | ordering => .ordering
  | pathStart | pathPart => .property
  | separator => .separator
  | negation => .negation
  | ignoreCase => .ignoreCase
  | operator _ => .operator
  | connective _ => .connective
  | direction _ => .direction
  | finish => .finish

/-- The name of the kind without the word it carries. -/
def head : Kind → String
  | preamble => "Prefix"
  | action _ => "Action"
  | all => "All"
  | first _ => "First"
  | distinct => "Distinct"
  | aggregate _ => "Aggregate"
  | criteria => "By"
  | ordering => "OrderBy"
  | pathStart => "PropertyStart"
  | pathPart => "PropertyPart"
  | separator => "Separator"
  | negation => "Not"
  | ignoreCase => "IgnoreCase"
  | operator _ => "Operator"
  | connective _ => "Connective"
  | direction _ => "Direction"
  | finish => "End"

/-- The kind in a listing of tokens: its name, and in brackets the word it carries. -/
def title (k : Kind) : String :=
  let carrying (word : String) := s!"{k.head}({word})"
  match k with
  | action a => carrying a.title
  | first n => carrying s!"{n}"
  | aggregate p => carrying p.title
  | operator o => carrying o.title
  | connective c => carrying c.title
  | direction d => carrying d.title
  | _ => k.head

end Kind

/-- A piece of a name. -/
structure Token where
  kind : Kind
  text : Text
  /-- The number of bytes before it. -/
  position : Nat
  deriving DecidableEq, Repr

end DerivedQuery
