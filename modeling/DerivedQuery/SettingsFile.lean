import DerivedQuery.Settings
import DerivedQuery.Toml.Document

/-!
# Settings in a file

The settings stand in the table `parser` of a TOML file, each under its name. What is missing keeps
its default, and what has another name is passed over.

* `Settings.ofToml?`: the settings of a document;
* `Settings.ofText?`: the settings of a text.
-/

namespace DerivedQuery.Settings

open Toml (Value)

/-- A switch, with its default where none is given. -/
def switch? (default : Bool) : Option Value → Option Bool
  | none => some default
  | some (.boolean b) => some b
  | some _ => none

/-- The settings in a table, or in an array by their order. A moment has no entries, so every
setting keeps its default. -/
def ofValue? : Value → Option Settings
  | .table entries => do
    let zero ← switch? false (entries.lookup "allow-zero-count".toList)
    let separated ← switch? true (entries.lookup "separated-order-items".toList)
    return { allowZeroCount := zero, separatedOrderItems := separated }
  | .array items => do
    let zero ← switch? false items[0]?
    let separated ← switch? true items[1]?
    return { allowZeroCount := zero, separatedOrderItems := separated }
  | .moment => some {}
  | _ => none

/-- The settings of a document. -/
def ofToml? (document : Value) : Option Settings :=
  match document.get? "parser".toList with
  | none => some {}
  | some v => ofValue? v

/-- The settings of a text, `none` if it is no TOML or a setting is not a switch. -/
def ofText? (text : Text) : Option Settings := (Toml.parseToml text).bind ofToml?

end DerivedQuery.Settings
