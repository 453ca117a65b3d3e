import DerivedQuery.Toml.Reader
import DerivedQuery.Toml.Value

/-!
# TOML moments

A moment is a date, a time of day, or both with or without an offset.

* `date`, `time`, `offset`;
* `moment`.
-/

namespace DerivedQuery.Toml

open Reader

/-- A number of a fixed count of digits, within bounds. -/
def fixed (count least greatest : Nat) : Reader Nat := do
  let ds ← (List.replicate count ()).mapM fun _ => char Char.isDigit
  let n := Nat.ofDigitChars 10 ds 0
  guard (least ≤ n ∧ n ≤ greatest)
  return n

/-- Whether the year has a 29 February. -/
def isLeap (year : Nat) : Bool := year % 4 == 0 && (year % 100 != 0 || year % 400 == 0)

/-- The number of days of a month. -/
def daysIn (year month : Nat) : Nat :=
  if month = 2 then if isLeap year then 29 else 28
  else if month = 4 ∨ month = 6 ∨ month = 9 ∨ month = 11 then 30
  else 31

/-- A date that exists. -/
def date : Reader Unit := do
  let year ← fixed 4 0 9999
  word ['-']
  let month ← fixed 2 1 12
  word ['-']
  discard (fixed 2 1 (daysIn year month))

/-- A time of day; a minute may have a leap second. -/
def time : Reader Unit := do
  discard (fixed 2 0 23)
  word [':']
  discard (fixed 2 0 59)
  word [':']
  discard (fixed 2 0 60)
  discard (optional do
    word ['.']
    discard (char Char.isDigit)
    discard (span Char.isDigit))

/-- A distance from universal time. -/
def offset : Reader Unit :=
  discard (char fun c => c == 'Z' || c == 'z') <|> do
    discard (char fun c => c == '+' || c == '-')
    discard (fixed 2 0 23)
    word [':']
    discard (fixed 2 0 59)

/-- A moment. -/
def moment : Reader Value := do
  (do
    date
    discard (optional do
      discard (char fun c => c == 'T' || c == 't' || c == ' ')
      time
      discard (optional offset))) <|> time
  return .moment

end DerivedQuery.Toml
