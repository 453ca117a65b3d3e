import DerivedQuery.Token

/-!
# Keywords

Keywords are told from the words of a property by their case: a keyword ends where a camel-case
word ends. Of several keywords that fit, the longest is meant.

* `atBoundary`, `matchKeyword?`: a keyword at the start of a text;
* `Keyword.table`, `longestKeyword?`: the longest keyword among the categories asked for;
* `leadingAction?`, `capitalizedAction?`: the two forms of an action.
-/

namespace DerivedQuery

/-- Whether a camel-case word may end before the text: nothing follows, or a character that is
neither a lower-case letter nor a digit. -/
def atBoundary : Text → Bool
  | [] => true
  | c :: _ => !(c.isLower || c.isDigit)

/-- What remains of a text after a keyword at its start, if the keyword ends a camel-case word. -/
def matchKeyword? (text word : Text) : Option Text := (word.isPrefixOf? text).filter atBoundary

/-- A fixed word and the token it makes. -/
structure Keyword where
  text : Text
  kind : Kind
  deriving DecidableEq, Repr

namespace Keyword

/-- The keyword of an operator. -/
def ofOperator (o : Operator) : Keyword := ⟨o.keyword, .operator o⟩

/-- The keyword of an aggregate. -/
def ofAggregate (k : ProjectionKind) : Keyword := ⟨k.title.toList, .aggregate k⟩

/-- The keyword of a connective. -/
def ofConnective (k : Connective) : Keyword := ⟨k.keyword, .connective k⟩

/-- The keyword of a direction. -/
def ofDirection (d : Direction) : Keyword := ⟨d.keyword, .direction d⟩

/-- Every keyword but the actions and `First`, the longer ones first. -/
def table : List Keyword :=
  [ofOperator .greaterThanEqual,
    ofOperator .lessThanEqual,
    ofOperator .greaterThan,
    ⟨"IgnoreCase".toList, .ignoreCase⟩,
    ofOperator .startsWith,
    ofOperator .contains,
    ⟨"Distinct".toList, .distinct⟩,
    ofOperator .endsWith,
    ofOperator .lessThan,
    ofOperator .between,
    ⟨"OrderBy".toList, .ordering⟩,
    ofOperator .before,
    ofOperator .after,
    ofOperator .equal,
    ofOperator .isEmpty,
    ofOperator .isFalse,
    ofOperator .like,
    ofOperator .isNull,
    ofOperator .isTrue,
    ofDirection .desc,
    ⟨"All".toList, .all⟩,
    ofAggregate .max,
    ofAggregate .min,
    ofAggregate .sum,
    ofAggregate .avg,
    ⟨"Not".toList, .negation⟩,
    ofConnective .and,
    ofDirection .asc,
    ⟨"By".toList, .criteria⟩,
    ofOperator .isIn,
    ofConnective .or]

/-- Longer keywords come first. -/
theorem pairwise_table : table.Pairwise fun k l => l.text.length ≤ k.text.length := by decide

/-- Whether the keyword is one of the categories asked for and begins the text. -/
def fits (accepts : Category → Bool) (text : Text) (k : Keyword) : Bool :=
  accepts k.kind.category && (matchKeyword? text k.text).isSome

end Keyword

/-- The longest keyword at the start of a text, of the categories asked for. -/
def longestKeyword? (accepts : Category → Bool) (text : Text) : Option Keyword :=
  Keyword.table.find? (Keyword.fits accepts text)

/-- The action at the start of a name. -/
def leadingAction? (text : Text) : Option Action :=
  Action.all.find? fun a => (matchKeyword? text a.keyword).isSome

/-- The action after a preamble. -/
def capitalizedAction? (text : Text) : Option Action :=
  Action.all.find? fun a => (matchKeyword? text a.capitalized).isSome

end DerivedQuery
