import DerivedQuery.Diagnostic
import DerivedQuery.Keyword
import DerivedQuery.Mode
import DerivedQuery.Settings

/-!
# Runs

A name is cut into runs. A run is one keyword, a preamble with its action, a limit, a whole path,
or a separator between order items. Where one begins depends only on the settings, the mode,
whether the action is one on many records, the character before it and the text that follows.

* `Piece`, `Run`: what is cut off, and the fault that stops it;
* `actionRun`, `limitRun?`, `pathRun`, `separatorRun`: the runs of each form;
* `nextRun`: the run that the mode asks for.
-/

namespace DerivedQuery

/-- A token that has not been placed yet. -/
structure Piece where
  kind : Kind
  text : Text
  deriving DecidableEq, Repr

/-- The pieces cut off the front of a text. A fault counts its position from where the last of
them ends. -/
structure Run where
  pieces : List Piece
  fault : Option Diagnostic := none
  deriving DecidableEq, Repr

namespace Run

/-- A run of pieces without a fault. -/
def cut (pieces : List Piece) : Run := { pieces }

/-- A run that is stopped before its first piece. -/
def stop (d : Diagnostic) : Run := { pieces := [], fault := some d }

end Run

/-! ## Preamble and action -/

/-- The piece of an action with the given keyword. -/
def actionPiece (a : Action) (word : Text) : Piece := ⟨.action a, word⟩

/-- The text before the first capitalized action, and the action. -/
def splitAtAction : Text → Except Diagnostic (Text × Action)
  | [] => .error (.unterminated 0 Mode.initial.expected)
  | c :: cs =>
    if isNameChar c then
      match capitalizedAction? (c :: cs) with
      | some a => .ok ([], a)
      | none =>
        match splitAtAction cs with
        | .ok (before, a) => .ok (c :: before, a)
        | .error d => .error (d.shift c.utf8Size)
    else .error (.malformed 0 Mode.initial.expected)

/-- The action at the start of a name, or the preamble and the first capitalized action. -/
def actionRun (text : Text) : Run :=
  match leadingAction? text with
  | some a => .cut [actionPiece a a.keyword]
  | none =>
    match splitAtAction text with
    | .ok ([], a) => .cut [actionPiece a a.capitalized]
    | .ok (before, a) => .cut [⟨.preamble, before⟩, actionPiece a a.capitalized]
    | .error d => .stop d

/-! ## Limits -/

/-- The word that opens a limit, before its digits. -/
def limitWord : Text := "First".toList

/-- The words that end a projection, so that a limit without digits is meant before them. -/
def endsLimit : Category → Bool
  | .criteria | .ordering | .distinct => true
  | _ => false

/-- The number of records that digits stand for: written without leading zeros, below `2 ^ 32`, and
zero only if the settings allow it. -/
def limitOf? (settings : Settings) (digits : Text) : Option Nat :=
  let n := Nat.ofDigitChars 10 digits 0
  if 1 < digits.length ∧ digits.head? = some '0' then none
  else if UInt32.size ≤ n then none
  else if n = 0 ∧ settings.allowZeroCount = false then none
  else some n

/-- A limit. The word that opens one may also begin the name of a property; then there is no
limit. -/
def limitRun? (settings : Settings) (text : Text) : Option Run :=
  match limitWord.isPrefixOf? text with
  | none => none
  | some after =>
    let digits := after.takeWhile Char.isDigit
    if digits ≠ [] then
      match limitOf? settings digits with
      | some n => some (.cut [⟨.first n, limitWord ++ digits⟩])
      | none => some (.stop (.invalidCount (byteLength limitWord) digits))
    else if after = [] then some (.stop (.unterminated (byteLength limitWord) [.digits]))
    else if (longestKeyword? endsLimit after).isSome then
      some (.stop (.invalidCount (byteLength limitWord) []))
    else none

/-! ## Paths -/

/-- Whether a segment goes on: with a lower-case letter, a digit, or an upper-case letter at which
no keyword begins that may follow the path. -/
def segmentContinues (accepts : Category → Bool) : Text → Bool
  | [] => false
  | c :: cs =>
    c.isLower || c.isDigit || (c.isUpper && (longestKeyword? accepts (c :: cs)).isNone)

/-- The rest of a segment, and the run of the separators and segments after it. A separator needs
a letter after it. -/
def pathTail (accepts : Category → Bool) : Text → Text × Run
  | [] => ([], .cut [])
  | c :: cs =>
    if segmentContinues accepts (c :: cs) then
      let tail := pathTail accepts cs
      (c :: tail.1, tail.2)
    else if c = separator then
      match cs with
      | d :: ds =>
        if d.isAlpha then
          let tail := pathTail accepts ds
          ([], { tail.2 with
            pieces := ⟨.separator, [separator]⟩ :: ⟨.pathPart, d :: tail.1⟩ :: tail.2.pieces })
        else ([], .stop (.danglingSeparator 0))
      | [] => ([], .stop (.danglingSeparator 0))
    else ([], .cut [])

/-- A path. The first character of a segment never begins a keyword. -/
def pathRun (mode : Mode) (text : Text) : Run :=
  match mode.pathMode?, text with
  | some within, c :: cs =>
    let tail := pathTail within.accepts cs
    { tail.2 with pieces := ⟨.pathStart, c :: tail.1⟩ :: tail.2.pieces }
  | _, _ => .stop (.malformed 0 mode.expected)

/-- Whether a path may start with the character: with an upper-case letter, and right after a
separator with any letter. -/
def startsPath (previous : Option Char) (c : Char) : Bool :=
  c.isUpper || (c.isAlpha && previous == some separator)

/-! ## Separators of order items -/

/-- The separator between two order items, if the settings allow it. -/
def separatorRun (settings : Settings) (after : Text) : Run :=
  if settings.separatedOrderItems = false then .stop (.malformed 0 [.property, .finish])
  else
    match after with
    | d :: _ =>
      if d.isAlpha then .cut [⟨.separator, [separator]⟩] else .stop (.danglingSeparator 0)
    | [] => .stop (.danglingSeparator 0)

/-! ## The next run -/

/-- The run at the start of a text that is neither a limit nor a keyword. -/
def plainRun (settings : Settings) (mode : Mode) (previous : Option Char) : Text → Run
  | [] => .stop (.malformed 0 mode.expected)
  | c :: cs =>
    if mode.accepts .property && startsPath previous c then pathRun mode (c :: cs)
    else if c = separator then
      if mode = .directed then separatorRun settings cs
      else if mode.accepts .property then .stop (.danglingSeparator 0)
      else .stop (.malformed 0 mode.expected)
    else .stop (.malformed 0 mode.expected)

/-- The run at the start of a text after the action: a limit if the mode takes one, else the
longest keyword the mode takes, else what is neither. -/
def clauseRun (settings : Settings) (mode : Mode) (isBulk : Bool) (previous : Option Char)
    (text : Text) : Run :=
  match if mode.accepts .first then limitRun? settings text else none with
  | some run => run
  | none =>
    match longestKeyword? mode.accepts text with
    | some k =>
      if k.kind = .ordering ∧ isBulk then .stop (.orderedBulk 0) else .cut [⟨k.kind, k.text⟩]
    | none => plainRun settings mode previous text

/-- The run that the mode asks for. -/
def nextRun (settings : Settings) (mode : Mode) (isBulk : Bool) (previous : Option Char)
    (text : Text) : Run :=
  if text = [] then
    if mode.accepts .finish then .cut [⟨.finish, []⟩] else .stop (.unterminated 0 mode.expected)
  else if mode = .initial then actionRun text
  else if mode = .done then .cut []
  else clauseRun settings mode isBulk previous text

end DerivedQuery
