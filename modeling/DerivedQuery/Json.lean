/-!
# JSON

The values that reports are written from, and their text: one item a line, two blanks for every
level, nothing escaped that need not be.

* `Json`, `Json.ofOption`;
* `Json.sortKeys`: the same value with the keys of every object in order;
* `Json.pretty`: the text.
-/

namespace DerivedQuery

/-- A JSON value. -/
inductive Json where
  | null
  | bool (b : Bool)
  | number (n : Nat)
  | string (s : String)
  | array (items : List Json)
  | object (fields : List (String × Json))

namespace Json

/-- A text as a JSON string. -/
def text (s : List Char) : Json := .string (String.ofList s)

/-! ## Order of keys -/

mutual

/-- The value with the keys of every object in order. -/
def sortKeys : Json → Json
  | .array items => .array (sortItems items)
  | .object fields => .object ((sortFields fields).mergeSort fun f g => f.1 ≤ g.1)
  | j => j

def sortItems : List Json → List Json
  | [] => []
  | j :: js => sortKeys j :: sortItems js

def sortFields : List (String × Json) → List (String × Json)
  | [] => []
  | (key, j) :: fields => (key, sortKeys j) :: sortFields fields

end

/-! ## Text -/

/-- The `\u` escape of a character below U+0020. -/
def escapeControl (c : Char) : String :=
  let digit (n : Nat) := (Nat.digitChar n).toString
  "\\u00" ++ digit (c.toNat / 16) ++ digit (c.toNat % 16)

/-- A character within a string. -/
def escapeChar (c : Char) : String :=
  if c = '"' then "\\\""
  else if c = '\\' then "\\\\"
  else if c = '\n' then "\\n"
  else if c = '\r' then "\\r"
  else if c = '\t' then "\\t"
  else if c = '\x08' then "\\b"
  else if c = '\x0c' then "\\f"
  else if c.toNat < 0x20 then escapeControl c
  else c.toString

/-- A string with its quotes. -/
def quote (s : String) : String :=
  s.toList.foldl (fun out c => out ++ escapeChar c) "\"" ++ "\""

/-- Lines between two brackets, one level further in. -/
def bracketed (opening closing : String) (body : List String) : List String :=
  if body = [] then [opening ++ closing]
  else opening :: body.map ("  " ++ ·) ++ [closing]

/-- Lines with a text in front of the first one. -/
def headed (head : String) : List String → List String
  | [] => [head]
  | line :: lines => (head ++ line) :: lines

/-- Lines with a comma after the last one. -/
def withComma : List String → List String
  | [] => []
  | [line] => [line ++ ","]
  | line :: lines => line :: withComma lines

/-- Groups of lines with commas between the groups. -/
def commaSeparated : List (List String) → List String
  | [] => []
  | [lines] => lines
  | lines :: groups => withComma lines ++ commaSeparated groups

mutual

/-- The lines of the text. -/
def lines : Json → List String
  | .null => ["null"]
  | .bool b => [if b then "true" else "false"]
  | .number n => [toString n]
  | .string s => [quote s]
  | .array items => bracketed "[" "]" (commaSeparated (itemLines items))
  | .object fields => bracketed "\x7b" "\x7d" (commaSeparated (fieldLines fields))

def itemLines : List Json → List (List String)
  | [] => []
  | j :: js => lines j :: itemLines js

def fieldLines : List (String × Json) → List (List String)
  | [] => []
  | (key, j) :: fields => headed (quote key ++ ": ") (lines j) :: fieldLines fields

end

/-- The text. -/
def pretty (j : Json) : String := "\n".intercalate j.lines

end Json

end DerivedQuery
