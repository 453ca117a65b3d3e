import DerivedQuery.Toml.Value

/-!
# TOML tables under construction

A table may be spread over a document: headers name it, dotted keys reach into it, and a deeper
header implies it. Which of these may follow which depends on how the table came to be.

* `Origin`, `Node`, `Entries`: tables that remember how they came to be;
* `openTable`, `openElement`: the two headers;
* `assign`: a key, dotted or not, in the table at hand;
* `Node.toValue`: the finished value.
-/

namespace DerivedQuery.Toml

/-- How a table came to be. -/
inductive Origin where
  /-- By a header of a table within it. -/
  | implied
  /-- By a dotted key. -/
  | dotted
  /-- By a header of its own. -/
  | header
  deriving DecidableEq

/-- What stands under a key. -/
inductive Node where
  | leaf (v : Value)
  | table (origin : Origin) (entries : List (Text × Node))
  /-- The tables of a repeated header, the last one first. -/
  | tables (elements : List (List (Text × Node)))

/-- The content of a table under construction. -/
abbrev Entries := List (Text × Node)

namespace Entries

/-- The entries with a node under a key, in the place of the one that stood there. -/
def put (key : Text) (n : Node) : Entries → Entries
  | [] => [(key, n)]
  | e :: es => if e.1 = key then (key, n) :: es else e :: put key n es

/-! ## Headers -/

/-- A change within the table under a key, as a header reaches it. A table that is not there is
implied, and of repeated tables the last one is meant. -/
def within (key : Text) (change : Entries → Option Entries) (es : Entries) : Option Entries :=
  match es.lookup key with
  | none => (change []).map fun sub => es.put key (.table .implied sub)
  | some (.table origin sub) => (change sub).map fun sub => es.put key (.table origin sub)
  | some (.tables (last :: earlier)) =>
    (change last).map fun last => es.put key (.tables (last :: earlier))
  | some _ => none

/-- A change within the table that a path of keys leads to. -/
def inside (change : Entries → Option Entries) : List Text → Entries → Option Entries
  | [], es => change es
  | key :: path, es => es.within key (inside change path)

/-- The header of a table. A table has one header at most, and none if dotted keys made it. -/
def openTable : List Text → Entries → Option Entries
  | [], _ => none
  | [key], es =>
    match es.lookup key with
    | none => some (es.put key (.table .header []))
    | some (.table .implied sub) => some (es.put key (.table .header sub))
    | some _ => none
  | key :: path, es => es.within key (openTable path)

/-- A header that may be repeated; each time it opens one table more. -/
def openElement : List Text → Entries → Option Entries
  | [], _ => none
  | [key], es =>
    match es.lookup key with
    | none => some (es.put key (.tables [[]]))
    | some (.tables elements) => some (es.put key (.tables ([] :: elements)))
    | some _ => none
  | key :: path, es => es.within key (openElement path)

/-! ## Keys -/

/-- Whether a dotted key may put an entry into a table, or reach through it. -/
def admits (origin : Origin) (isLast : Bool) : Bool :=
  match origin with
  | .dotted => true
  | .implied => !isLast
  | .header => false

/-- A value under a key that is not taken, in the table which the keys before it lead to. Dotted
keys make the tables they need, and do not change a table that has a header. -/
def assign (v : Value) : List Text → Entries → Option Entries
  | [], _ => none
  | [key], es => if (es.lookup key).isNone then some (es ++ [(key, .leaf v)]) else none
  | key :: path, es =>
    match es.lookup key with
    | none => (assign v path []).map fun sub => es.put key (.table .dotted sub)
    | some (.table origin sub) =>
      if admits origin (path.length = 1) then
        (assign v path sub).map fun sub => es.put key (.table origin sub)
      else none
    | some (.tables (last :: earlier)) =>
      if path.length = 1 then none
      else (assign v path last).map fun last => es.put key (.tables (last :: earlier))
    | some _ => none

end Entries

/-! ## Finished tables -/

mutual

/-- The finished value. -/
def Node.toValue : Node → Value
  | .leaf v => v
  | .table _ entries => .table (finishEntries entries)
  | .tables elements => .array (finishElements elements).reverse

def finishEntries : List (Text × Node) → List (Text × Value)
  | [] => []
  | (key, n) :: entries => (key, n.toValue) :: finishEntries entries

def finishElements : List (List (Text × Node)) → List Value
  | [] => []
  | entries :: elements => .table (finishEntries entries) :: finishElements elements

end

end DerivedQuery.Toml
