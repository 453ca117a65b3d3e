import DerivedQuery.Toml.Reader
import DerivedQuery.Toml.Value

/-!
# TOML numbers

Integers are those of 64 bits with a sign, in base 10, 16, 8 or 2. A float has a fraction or an
exponent, or is one of the special words; one that rounds to positive infinity is refused.

* `digits`: digits with single underscores between them;
* `integer`, `float`.
-/

namespace DerivedQuery.Toml

open Reader

/-! ## Digits -/

/-- The digits at the front, and what follows them. An underscore has to have digits on either
side. -/
def digitTail (ok : Char → Bool) : Text → Text × Text
  | [] => ([], [])
  | '_' :: d :: cs =>
    if ok d then
      let tail := digitTail ok cs
      (d :: tail.1, tail.2)
    else ([], '_' :: d :: cs)
  | c :: cs =>
    if ok c then
      let tail := digitTail ok cs
      (c :: tail.1, tail.2)
    else ([], c :: cs)

/-- Digits with single underscores between them, which are left out. -/
def digits (ok : Char → Bool) : Reader Text := do
  let first ← char ok
  let tail ← fun text => some (digitTail ok text)
  return first :: tail

/-- A sign, `true` for a minus. -/
def sign : Reader Bool := do
  let c ← optional (char fun c => c == '+' || c == '-')
  return c == some '-'

/-- Decimal digits with a sign, without leading zeros. -/
def signedDigits : Reader (Bool × Text) := do
  let negative ← sign
  let ds ← digits Char.isDigit
  guard (ds.length = 1 ∨ ds.head? ≠ some '0')
  return (negative, ds)

/-! ## Integers -/

/-- The value of digits in a base. -/
def valueOf (base : Nat) (ds : Text) : Nat :=
  ds.foldl (fun n c =>
    base * n +
      if c.isDigit then c.toNat - '0'.toNat else c.toLower.toNat - 'a'.toNat + 10) 0

/-- The integer, if it has 64 bits with its sign. -/
def inRange (n : Int) : Reader Value := do
  guard (Int64.minValue.toInt ≤ n ∧ n ≤ Int64.maxValue.toInt)
  return .integer n

/-- An integer in a base other than 10. -/
def based (mark : Char) (base : Nat) (ok : Char → Bool) : Reader Value := do
  word ['0', mark]
  let ds ← digits ok
  inRange (valueOf base ds)

/-- Hexadecimal digits. -/
def isHexDigit (c : Char) : Bool := c.isDigit || ('a' ≤ c && c ≤ 'f') || ('A' ≤ c && c ≤ 'F')

/-- An integer. -/
def integer : Reader Value :=
  based 'x' 16 isHexDigit <|>
    based 'o' 8 (fun c => '0' ≤ c && c ≤ '7') <|>
    based 'b' 2 (fun c => c == '0' || c == '1') <|> do
      let (negative, ds) ← signedDigits
      let n : Int := valueOf 10 ds
      inRange (if negative then -n else n)

/-! ## Floats -/

/-- The least number that rounds to infinity: half a unit above the greatest float. -/
def infinityBound : Nat := Nat.pow 2 1024 - Nat.pow 2 970

/-- Whether the number with the digits, times the power of ten, rounds to infinity. A look at the
decimal places of the first digit settles all but 309 of them. -/
def isHuge (ds : Text) (exponent : Int) : Bool :=
  let significant := ds.dropWhile (· == '0')
  let places : Int := significant.length + exponent
  if significant = [] then false
  else if 309 < places then true
  else if places < 309 then false
  else if 0 ≤ exponent then infinityBound ≤ valueOf 10 significant * Nat.pow 10 exponent.toNat
  else infinityBound * Nat.pow 10 (-exponent).toNat ≤ valueOf 10 significant

/-- An exponent. -/
def exponent : Reader Int := do
  discard (char fun c => c == 'e' || c == 'E')
  let negative ← sign
  let n : Int := valueOf 10 (← digits Char.isDigit)
  return if negative then -n else n

/-- The digits after the point. -/
def fraction : Reader Text := do
  word ['.']
  digits Char.isDigit

/-- A float with a fraction or an exponent. -/
def finiteFloat : Reader Value := do
  let (negative, whole) ← signedDigits
  let part ← optional fraction
  let power ← if part.isSome then (do return (← optional exponent).getD 0) else exponent
  let ds := part.getD []
  guard (negative || !isHuge (whole ++ ds) (power - ds.length))
  return .float

/-- Infinity, or no number. -/
def specialFloat : Reader Value := do
  discard sign
  word "inf".toList <|> word "nan".toList
  return .float

/-- A float. -/
def float : Reader Value := finiteFloat <|> specialFloat

end DerivedQuery.Toml
