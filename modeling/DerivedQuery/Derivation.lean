import DerivedQuery.Draft
import DerivedQuery.Scan

/-!
# Derivation

The query that a method name stands for.

* `tokenize`: the tokens of a name;
* `parse`: the query of a name.
-/

namespace DerivedQuery

/-- The tokens of a name, the end of the name included. -/
def tokenize (settings : Settings) (name : Text) : Except Diagnostic (List Token) :=
  let transcript := Scan.transcript settings name
  match transcript.fault with
  | some d => .error d
  | none => .ok transcript.tokens

/-- The query of a name. The first fault counts, be it one of the name or of the draft. -/
def parse (settings : Settings) (name : Text) : Except Diagnostic Query :=
  let transcript := Scan.transcript settings name
  match transcript.tokens.foldlM Draft.add {} with
  | .error d => .error d
  | .ok draft =>
    match transcript.fault with
    | some d => .error d
    | none => draft.finish (byteLength name)

end DerivedQuery
