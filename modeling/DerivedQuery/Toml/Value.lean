import DerivedQuery.Text

/-!
# TOML values

* `Toml.Value`;
* `Toml.Value.get?`: the value under a key of a table.
-/

namespace DerivedQuery.Toml

/-- A value of a configuration file. No setting is a float or a moment, so these keep no more than
what they are. -/
inductive Value where
  | string (s : Text)
  | integer (n : Int)
  | float
  | boolean (b : Bool)
  /-- A date, a time, or both. -/
  | moment
  | array (items : List Value)
  | table (entries : List (Text × Value))

namespace Value

/-- The value under a key of a table. -/
def get? (v : Value) (key : Text) : Option Value :=
  match v with
  | table entries => entries.lookup key
  | _ => none

end Value

end DerivedQuery.Toml
