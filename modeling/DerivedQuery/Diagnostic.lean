import DerivedQuery.Token

/-!
# Diagnostics

Why a method name is rejected: the cause, where it stands, and what could have stood there.

* `Diagnostic`, with `position` and `expected`;
* `Diagnostic.message`: the wording;
* `Diagnostic.shift`: the same cause in a name with more text in front.
-/

namespace DerivedQuery

/-- Why a name is rejected. -/
inductive Diagnostic where
  /-- No token that may follow begins here. -/
  | malformed (position : Nat) (expected : List Category)
  /-- The name ends where a token must follow. -/
  | unterminated (position : Nat) (expected : List Category)
  /-- A separator without a segment next to it. -/
  | danglingSeparator (position : Nat)
  /-- An order for an action on many records. -/
  | orderedBulk (position : Nat)
  /-- A word First without a number that can be a limit. -/
  | invalidCount (position : Nat) (digits : Text)
  deriving DecidableEq, Repr

namespace Diagnostic

/-- The name of the cause. -/
def title : Diagnostic → String
  | malformed .. => "MalformedIdentifier"
  | unterminated .. => "UnterminatedExpression"
  | danglingSeparator .. => "DanglingSeparator"
  | orderedBulk .. => "InvalidOrderingWithBulkOperation"
  | invalidCount .. => "InvalidProjectionCount"

/-- The number of bytes before the fault. -/
def position : Diagnostic → Nat
  | malformed p _ | unterminated p _ | danglingSeparator p | orderedBulk p | invalidCount p _ => p

/-- The categories that could have stood at the position. -/
def expected : Diagnostic → List Category
  | malformed _ cs | unterminated _ cs => cs
  | danglingSeparator _ => [.property]
  | orderedBulk _ => [.finish]
  | invalidCount .. => [.digits]

/-- Categories as a diagnostic lists them. -/
def listing (cs : List Category) : String := ", ".intercalate (cs.map Category.describe)

/-- The wording. -/
def message : Diagnostic → String
  | malformed p cs => s!"Malformed identifier at position {p}: expected {listing cs}"
  | unterminated p cs => s!"Unterminated expression at position {p}: expected {listing cs}"
  | danglingSeparator p => s!"Dangling separator at position {p}"
  | orderedBulk p => s!"Ordering is not allowed with bulk operations (position {p})"
  | invalidCount p ds => s!"Invalid projection count '{String.ofList ds}' at position {p}"

/-- The diagnostic, `n` bytes further on. -/
def shift (n : Nat) : Diagnostic → Diagnostic
  | malformed p cs => malformed (n + p) cs
  | unterminated p cs => unterminated (n + p) cs
  | danglingSeparator p => danglingSeparator (n + p)
  | orderedBulk p => orderedBulk (n + p)
  | invalidCount p ds => invalidCount (n + p) ds

@[simp] theorem position_shift (n : Nat) (d : Diagnostic) :
    (d.shift n).position = n + d.position := by cases d <;> rfl

@[simp] theorem expected_shift (n : Nat) (d : Diagnostic) : (d.shift n).expected = d.expected := by
  cases d <;> rfl

@[simp] theorem shift_shift (m n : Nat) (d : Diagnostic) :
    (d.shift m).shift n = d.shift (n + m) := by
  cases d <;> simp [shift, Nat.add_assoc]

end Diagnostic

end DerivedQuery
