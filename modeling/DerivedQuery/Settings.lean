/-!
# Settings

The two switches of the grammar.
-/

namespace DerivedQuery

/-- The switches of the grammar. -/
structure Settings where
  /-- Whether `First0` is a limit. -/
  allowZeroCount : Bool := false
  /-- Whether order items may have a separator between them. -/
  separatedOrderItems : Bool := true
  deriving DecidableEq, Repr

instance : Inhabited Settings := ⟨{}⟩

end DerivedQuery
