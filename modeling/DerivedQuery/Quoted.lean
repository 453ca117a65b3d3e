import DerivedQuery.Quoted.Unprinted

/-!
# Quoted text

How a log line shows a text: between double quotes, with escapes for what would not be seen.

* `quoteChar`, `quoted`.
-/

namespace DerivedQuery

/-- The number of a character, in braces. -/
def numberEscape (c : Char) : String :=
  "\\u\x7b" ++ String.ofList (Nat.toDigits 16 c.toNat) ++ "\x7d"

/-- A character between the quotes. -/
def quoteChar (c : Char) : String :=
  if c = '\x00' then "\\0"
  else if c = '\t' then "\\t"
  else if c = '\r' then "\\r"
  else if c = '\n' then "\\n"
  else if c = '\\' then "\\\\"
  else if c = '"' then "\\\""
  else if isUnprinted c then numberEscape c
  else c.toString

/-- A text between quotes. -/
def quoted (s : List Char) : String := s.foldl (fun out c => out ++ quoteChar c) "\"" ++ "\""

end DerivedQuery
