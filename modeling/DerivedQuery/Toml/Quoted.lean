import DerivedQuery.Toml.Reader

/-!
# TOML strings

Strings in double quotes may hold escapes, those in single quotes hold what is written. Either may
be tripled and then spans lines.

* `quotedLine`: a string in one line, also a quoted key;
* `quoted`: any string.
-/

namespace DerivedQuery.Toml

open Reader

/-! ## Escapes -/

/-- The character of an escape that is one letter. -/
def escapeOf? : Char → Option Char
  | 'b' => some '\x08'
  | 'f' => some '\x0c'
  | 'n' => some '\n'
  | 'r' => some '\r'
  | 't' => some '\t'
  | '"' => some '"'
  | '\\' => some '\\'
  | _ => none

/-- The value of a hexadecimal digit. -/
def hexDigit? (c : Char) : Option Nat :=
  if c.isDigit then some (c.toNat - '0'.toNat)
  else if 'a' ≤ c ∧ c ≤ 'f' then some (c.toNat - 'a'.toNat + 10)
  else if 'A' ≤ c ∧ c ≤ 'F' then some (c.toNat - 'A'.toNat + 10)
  else none

/-- The character with the code point of the hexadecimal digits. -/
def ofHex? (digits : Text) : Option Char := do
  let n ← digits.foldlM (fun n c => (hexDigit? c).map (16 * n + ·)) 0
  if n.isValidChar then some (Char.ofNat n) else none

/-! ## Strings in one line -/

/-- The rest of a string in double quotes, and what follows it. -/
def basicBody : Text → Option (Text × Text)
  | [] => none
  | '"' :: cs => some ([], cs)
  | '\\' :: 'u' :: a :: b :: c :: d :: cs => do
    let e ← ofHex? [a, b, c, d]
    let (body, rest) ← basicBody cs
    return (e :: body, rest)
  | '\\' :: 'U' :: a :: b :: c :: d :: e :: f :: g :: h :: cs => do
    let e ← ofHex? [a, b, c, d, e, f, g, h]
    let (body, rest) ← basicBody cs
    return (e :: body, rest)
  | '\\' :: c :: cs => do
    let e ← escapeOf? c
    let (body, rest) ← basicBody cs
    return (e :: body, rest)
  | c :: cs =>
    if isPlain c then do
      let (body, rest) ← basicBody cs
      return (c :: body, rest)
    else none

/-- A string in double quotes. -/
def basic : Reader Text := do
  word ['"']
  basicBody

/-- A string in single quotes. -/
def literal : Reader Text := do
  word ['\'']
  let body ← span fun c => isPlain c && c != '\''
  word ['\'']
  return body

/-- A string in one line. -/
def quotedLine : Reader Text := basic <|> literal

/-! ## Strings over many lines -/

/-- Where a string over many lines stands: within its text, between a backslash and the end of the
line, or in the blanks and line ends which that backslash drops. -/
inductive Spot where
  | text
  | lineEnd
  | dropping
  deriving DecidableEq

/-- The rest of a string in tripled double quotes, and what follows it. At most two quotes may
stand right before the closing three. -/
def basicLines (spot : Spot) : Text → Option (Text × Text)
  | [] => none
  | '\r' :: '\n' :: cs =>
    if spot = .text then do
      let (body, rest) ← basicLines .text cs
      return ('\n' :: body, rest)
    else basicLines .dropping cs
  | '\n' :: cs =>
    if spot = .text then do
      let (body, rest) ← basicLines .text cs
      return ('\n' :: body, rest)
    else basicLines .dropping cs
  | '"' :: cs =>
    if spot = .lineEnd then none
    else
      match cs with
      | '"' :: '"' :: '"' :: '"' :: cs => some (['"', '"'], cs)
      | '"' :: '"' :: '"' :: cs => some (['"'], cs)
      | '"' :: '"' :: cs => some ([], cs)
      | cs => do
        let (body, rest) ← basicLines .text cs
        return ('"' :: body, rest)
  | '\\' :: cs =>
    if spot = .lineEnd then none
    else
      match cs with
      | [] => none
      | 'u' :: a :: b :: c :: d :: cs => do
        let e ← ofHex? [a, b, c, d]
        let (body, rest) ← basicLines .text cs
        return (e :: body, rest)
      | 'U' :: a :: b :: c :: d :: e :: f :: g :: h :: cs => do
        let e ← ofHex? [a, b, c, d, e, f, g, h]
        let (body, rest) ← basicLines .text cs
        return (e :: body, rest)
      | c :: cs =>
        match escapeOf? c with
        | some e => do
          let (body, rest) ← basicLines .text cs
          return (e :: body, rest)
        | none => if isBlank c || c = '\n' || c = '\r' then basicLines .lineEnd (c :: cs) else none
  | c :: cs =>
    if spot ≠ .text ∧ isBlank c then basicLines spot cs
    else if spot = .lineEnd then none
    else if isPlain c then do
      let (body, rest) ← basicLines .text cs
      return (c :: body, rest)
    else none

/-- The rest of a string in tripled single quotes, and what follows it. At most two quotes may
stand right before the closing three. -/
def literalLines : Text → Option (Text × Text)
  | [] => none
  | '\'' :: '\'' :: '\'' :: '\'' :: '\'' :: cs => some (['\'', '\''], cs)
  | '\'' :: '\'' :: '\'' :: '\'' :: cs => some (['\''], cs)
  | '\'' :: '\'' :: '\'' :: cs => some ([], cs)
  | '\r' :: '\n' :: cs => do
    let (body, rest) ← literalLines cs
    return ('\n' :: body, rest)
  | c :: cs =>
    if isPlain c || c = '\n' then do
      let (body, rest) ← literalLines cs
      return (c :: body, rest)
    else none

/-- A string between tripled quotes, without a line end right after the opening ones. -/
def tripled (quote : Char) (body : Reader Text) : Reader Text := do
  word [quote, quote, quote]
  discard (optional newline)
  body

/-- A string. -/
def quoted : Reader Text :=
  tripled '"' (basicLines .text) <|> basic <|> tripled '\'' literalLines <|> literal

end DerivedQuery.Toml
