/-!
# Text

Method names are read as lists of characters, on which scanning and its proofs go by recursion.
Positions in a name count the bytes of its UTF-8 form.

* `Text`, `byteLength`: the bytes a text takes;
* `capitalize`, `uncapitalize`: the case of the first letter, by the ASCII case map;
* `isNameChar`: what a method name is made of;
* `inRanges`: classes of characters that are given by their ranges.
-/

namespace DerivedQuery

/-- A text, character by character. -/
abbrev Text := List Char

/-- The number of bytes of the UTF-8 form. -/
def byteLength : Text → Nat
  | [] => 0
  | c :: cs => c.utf8Size + byteLength cs

@[simp] theorem byteLength_nil : byteLength [] = 0 := rfl

@[simp] theorem byteLength_cons (c : Char) (cs : Text) :
    byteLength (c :: cs) = c.utf8Size + byteLength cs := rfl

@[simp] theorem byteLength_append (s t : Text) :
    byteLength (s ++ t) = byteLength s + byteLength t := by
  induction s with
  | nil => simp
  | cons c cs ih => simp [ih, Nat.add_assoc]

/-- The text with its first letter in upper case. -/
def capitalize : Text → Text
  | [] => []
  | c :: cs => c.toUpper :: cs

/-- The text with its first letter in lower case. -/
def uncapitalize : Text → Text
  | [] => []
  | c :: cs => c.toLower :: cs

/-- The separator of path segments and of order items. -/
def separator : Char := '_'

/-- ASCII letters, digits and the separator. -/
def isNameChar (c : Char) : Bool := c.isAlphanum || c == separator

/-- Whether the code point of a character is in one of the ranges, whose ends are included. -/
def inRanges (ranges : List (Nat × Nat)) (c : Char) : Bool :=
  ranges.any fun range => range.1 ≤ c.toNat && c.toNat ≤ range.2

end DerivedQuery
