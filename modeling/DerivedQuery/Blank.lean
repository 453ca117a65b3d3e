import DerivedQuery.Text

/-!
# White space

The characters of the Unicode property White_Space, and texts without them at either end.

* `isWhite`, `trim`;
* `splitLines`.
-/

namespace DerivedQuery

/-- Whether the character has the property White_Space. -/
def isWhite (c : Char) : Bool :=
  let n := c.toNat
  (0x09 ≤ n && n ≤ 0x0d) || n == 0x20 || n == 0x85 || n == 0xa0 || n == 0x1680 ||
    (0x2000 ≤ n && n ≤ 0x200a) || n == 0x2028 || n == 0x2029 || n == 0x202f || n == 0x205f ||
    n == 0x3000

/-- The text without the white space at its end. -/
def trimEnd (s : Text) : Text := (s.reverse.dropWhile isWhite).reverse

/-- The text without the white space at either end. -/
def trim (s : Text) : Text := trimEnd (s.dropWhile isWhite)

/-- The pieces between line feeds. -/
def splitLines : Text → List Text
  | [] => [[]]
  | c :: cs =>
    if c = '\n' then [] :: splitLines cs
    else
      match splitLines cs with
      | [] => [[c]]
      | line :: lines => (c :: line) :: lines

end DerivedQuery
