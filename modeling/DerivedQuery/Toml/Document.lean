import DerivedQuery.Toml.Moment
import DerivedQuery.Toml.Number
import DerivedQuery.Toml.Quoted
import DerivedQuery.Toml.Table

/-!
# TOML documents

* `keyPath`: a key, dotted or not;
* `value`: a value, with arrays and inline tables;
* `Document`, `document`: the lines of a file;
* `parseToml`: the table that a text stands for.
-/

namespace DerivedQuery.Toml

open Reader

/-! ## Keys -/

/-- The most parts that a key may have, and the most levels of arrays and inline tables. -/
def depthLimit : Nat := 79

/-- Characters of a key without quotes. -/
def isBareKeyChar (c : Char) : Bool := c.isAlphanum || c == '_' || c == '-'

/-- A key without dots. -/
def simpleKey : Reader Text :=
  quotedLine <|> do
    let key ← span isBareKeyChar
    guard (key ≠ [])
    return key

/-- At most `fuel` keys with dots between them. -/
def dottedKeys : (fuel : Nat) → Reader (List Text)
  | 0 => failure
  | fuel + 1 => do
    blanks
    let key ← simpleKey
    blanks
    if (← optional (word ['.'])).isSome then return key :: (← dottedKeys fuel) else return [key]

/-- A key: one or more keys with dots between them. -/
def keyPath : Reader (List Text) := dottedKeys depthLimit

/-! ## Values -/

/-- A value that holds no other. -/
def scalar : Reader Value :=
  (Value.string <$> quoted) <|> moment <|> float <|> integer <|>
    (do
      word "true".toList
      return .boolean true) <|> do
        word "false".toList
        return .boolean false

/-- At most `fuel` items of an array and its closing bracket. -/
def arrayItems (item : Reader Value) : (fuel : Nat) → Reader (List Value)
  | 0 => failure
  | fuel + 1 => do
    spacing
    if (← optional (word [']'])).isSome then return []
    let v ← item
    spacing
    if (← optional (word [','])).isSome then return v :: (← arrayItems item fuel)
    word [']']
    return [v]

/-- An array; a comma may follow the last item. -/
def array (item : Reader Value) : Reader Value := do
  word ['[']
  return .array (← arrayItems item ((← get).length + 1))

/-- At most `fuel` entries of an inline table and its closing brace, added to those read before. -/
def inlineEntries (item : Reader Value) : (fuel : Nat) → Entries → Reader Entries
  | 0, _ => failure
  | fuel + 1, es => do
    let path ← keyPath
    word ['=']
    blanks
    let v ← item
    blanks
    let es ← es.assign v path
    if (← optional (word [','])).isSome then inlineEntries item fuel es
    else
      word ['}']
      return es

/-- A table within one line; no comma may follow the last entry. -/
def inlineTable (item : Reader Value) : Reader Value := do
  word ['{']
  blanks
  if (← optional (word ['}'])).isSome then return .table []
  return .table (finishEntries (← inlineEntries item ((← get).length + 1) []))

/-- A value with at most `depth` levels of arrays and inline tables. -/
def value : (depth : Nat) → Reader Value
  | 0 => scalar
  | depth + 1 => scalar <|> array (value depth) <|> inlineTable (value depth)

/-! ## Lines -/

/-- A document under construction. -/
structure Document where
  root : Entries := []
  /-- The path of the last header. -/
  path : List Text := []

/-- A line with a key and its value. -/
def keyLine (d : Document) : Reader Document := do
  let keys ← keyPath
  word ['=']
  blanks
  let v ← value depthLimit
  lineEnd
  return { d with root := ← d.root.inside (Entries.assign v keys) d.path }

/-- The header of a table that may be repeated. -/
def elementHeader (d : Document) : Reader Document := do
  word ['[', '[']
  let path ← keyPath
  word [']', ']']
  lineEnd
  return { root := ← d.root.openElement path, path }

/-- The header of a table. -/
def tableHeader (d : Document) : Reader Document := do
  word ['[']
  let path ← keyPath
  word [']']
  lineEnd
  return { root := ← d.root.openTable path, path }

/-- A line. -/
def line (d : Document) : Reader Document := do
  blanks
  match (← get).head? with
  | some '[' => elementHeader d <|> tableHeader d
  | some '#' | some '\n' | some '\r' => do
    lineEnd
    return d
  | _ => keyLine d

/-- At most `fuel` lines. -/
def lines : (fuel : Nat) → Document → Reader Document
  | 0, _ => failure
  | fuel + 1, d => do
    blanks
    if (← get) = [] then return d
    lines fuel (← line d)

/-- A whole document. A byte order mark may stand in front. -/
def document : Reader Document := do
  discard (optional (word ['\ufeff']))
  lines ((← get).length + 1) {}

/-- The table that a text stands for, `none` if it is no TOML. -/
def parseToml (text : Text) : Option Value :=
  (document.run text).map fun result => .table (finishEntries result.1.root)

end DerivedQuery.Toml
