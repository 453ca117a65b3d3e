import DerivedQuery.Proofs.Bytes
import DerivedQuery.Scan

/-!
# Scans over bytes

A scanner that stands at a byte of the name cuts tokens by counting bytes. It goes on byte by byte,
and slices the name wherever it looks for a word, although characters may take several bytes.

* `ByteScan`, `ByteM`: a scan that has no result once it asks for a slice or a byte that does not
  exist;
* `ByteScan.slice`, `ByteScan.byteAt`: the places where that may happen;
* `ByteScan.emit`, `ByteScan.scanAction`, `ByteScan.scanLimit`, `ByteScan.scanPath`,
  `ByteScan.scanClause`: the parts of a step;
* `ByteScan.next`, `ByteScan.calls`: the tokens one by one.
-/

namespace DerivedQuery

/-- A scan in progress, which stands at a byte of the name. -/
structure ByteScan where
  settings : Settings
  input : Text
  mode : Mode
  position : Nat
  queue : List Token
  isBulk : Bool

/-- A part of a step: it changes the scan, and it may end with a diagnostic. Without a result, it
has asked for a slice or for a byte that does not exist. -/
abbrev ByteM := ExceptT Diagnostic (StateT ByteScan Option)

namespace ByteScan

def ofName (settings : Settings) (name : Text) : ByteScan where
  settings := settings
  input := name
  mode := .initial
  position := 0
  queue := []
  isBulk := false

/-! ## Slices and bytes -/

/-- The name between two bytes. -/
def slice (start stop : Nat) : ByteM Text := do
  let s ← get
  liftM (slice? s.input start stop)

/-- The name from a byte on. -/
def sliceFrom (start : Nat) : ByteM Text := do
  let s ← get
  slice start (byteLength s.input)

/-- A byte that is taken to be there. -/
def byteAt (bytes : List UInt8) (i : Nat) : ByteM UInt8 := liftM bytes[i]?

/-! ## Tokens -/

/-- The token between two bytes is queued, and the scan stands behind it. -/
def emit (kind : Kind) (start stop : Nat) : ByteM Unit := do
  let s ← get
  match s.mode.next? kind with
  | none => throw (.malformed start s.mode.expected)
  | some target => do
    let text ← slice start stop
    let t : Token := ⟨kind, text, start⟩
    set { s with mode := target, position := stop, queue := s.queue ++ [t] }

def emitAction (a : Action) (start : Nat) : ByteM Unit := do
  modify fun s => { s with isBulk := s.isBulk || a.isBulk }
  emit (.action a) start (start + byteLength a.keyword)

/-- An action behind a preamble, or at the front of the name. -/
def emitFound (a : Action) (start : Nat) : ByteM Unit :=
  if 0 < start then do
    emit .preamble 0 start
    emitAction a start
  else emitAction a start

/-- The first capitalized action, from the byte `i` on. -/
def scanCapitalized : (i : Nat) → List UInt8 → ByteM Unit
  | _, [] => do
    let s ← get
    throw (.unterminated (byteLength s.input) Mode.initial.expected)
  | i, b :: bs =>
    if isNameChar b.toChar then
      if b.toChar.isUpper then do
        let rest ← sliceFrom i
        match capitalizedAction? rest with
        | some a => emitFound a i
        | none => scanCapitalized (i + 1) bs
      else scanCapitalized (i + 1) bs
    else throw (.malformed i Mode.initial.expected)

def scanAction : ByteM Unit := do
  let s ← get
  match leadingAction? s.input with
  | some a => emitAction a 0
  | none => scanCapitalized 0 (bytesOf s.input)

/-- A limit. There is none if the word that opens one begins the name of a property. -/
def scanLimit : ByteM Bool := do
  let s ← get
  let rest ← sliceFrom s.position
  match limitWord.isPrefixOf? rest with
  | none => return false
  | some after =>
    let countAt := s.position + byteLength limitWord
    let digits := after.takeWhile Char.isDigit
    if digits ≠ [] then
      match limitOf? s.settings digits with
      | some n => do
        emit (.first n) s.position (countAt + byteLength digits)
        return true
      | none => throw (.invalidCount countAt digits)
    else if after = [] then throw (.unterminated countAt [.digits])
    else if (longestKeyword? endsLimit after).isSome then throw (.invalidCount countAt [])
    else return false

/-- Whether the byte before the position is a separator. -/
def followsSeparator : ByteM Bool := do
  let s ← get
  if 0 < s.position then do
    let b ← byteAt (bytesOf s.input) (s.position - 1)
    return b.toChar == separator
  else return false

def startsSegment (b : UInt8) : ByteM Bool :=
  if b.toChar.isUpper then return true
  else if b.toChar.isAlpha then followsSeparator
  else return false

/-- Whether a segment goes on with the byte `b`, which stands at `stop`. -/
def goesOn (within : Mode) (stop : Nat) (b : UInt8) : ByteM Bool :=
  if b.toChar.isLower || b.toChar.isDigit then return true
  else if b.toChar.isUpper then do
    let rest ← sliceFrom stop
    return (longestKeyword? within.accepts rest).isNone
  else return false

mutual

/-- A segment that has been passed up to the byte `stop`, and what follows it. -/
def scanSegment (within : Mode) (kind : Kind) (start stop : Nat) : List UInt8 → ByteM Unit
  | [] => emit kind start stop
  | b :: bs => do
    if ← goesOn within stop b then scanSegment within kind start (stop + 1) bs
    else do
      emit kind start stop
      scanParts within stop (b :: bs)
termination_by bytes => (bytes.length, 1)

/-- Behind a segment, a separator and a letter begin another one. -/
def scanParts (within : Mode) (stop : Nat) : List UInt8 → ByteM Unit
  | [] => return
  | b :: bs =>
    if b.toChar = separator then
      match bs with
      | d :: ds =>
        if d.toChar.isAlpha then do
          emit .separator stop (stop + 1)
          scanSegment within .pathPart (stop + 1) (stop + 2) ds
        else throw (.danglingSeparator stop)
      | [] => throw (.danglingSeparator stop)
    else return
termination_by bytes => (bytes.length, 0)

end

def scanPath : ByteM Unit := do
  let s ← get
  match s.mode.pathMode? with
  | none => throw (.malformed s.position s.mode.expected)
  | some within =>
    scanSegment within .pathStart s.position (s.position + 1)
      ((bytesOf s.input).drop (s.position + 1))

/-- The separator between two order items. -/
def scanOrderSeparator : ByteM Unit := do
  let s ← get
  if s.settings.separatedOrderItems = false then
    throw (.malformed s.position [.property, .finish])
  else
    match (bytesOf s.input)[s.position + 1]? with
    | some d =>
      if d.toChar.isAlpha then emit .separator s.position (s.position + 1)
      else throw (.danglingSeparator s.position)
    | none => throw (.danglingSeparator s.position)

/-- What is neither a limit nor a keyword. -/
def scanPlain (rest : Text) : ByteM Unit := do
  let s ← get
  let first ← byteAt (bytesOf rest) 0
  if ← (if s.mode.accepts .property then startsSegment first else return false) then scanPath
  else if first.toChar = separator then
    if s.mode = .directed then scanOrderSeparator
    else if s.mode.accepts .property then throw (.danglingSeparator s.position)
    else throw (.malformed s.position s.mode.expected)
  else throw (.malformed s.position s.mode.expected)

def scanClause : ByteM Unit := do
  let s ← get
  let rest ← sliceFrom s.position
  if ← (if s.mode.accepts .first then scanLimit else return false) then return
  else
    match longestKeyword? s.mode.accepts rest with
    | some k =>
      if k.kind = .ordering ∧ s.isBulk then throw (.orderedBulk s.position)
      else emit k.kind s.position (s.position + byteLength k.text)
    | none => scanPlain rest

def step : ByteM Unit := do
  let s ← get
  if byteLength s.input ≤ s.position then
    if s.mode.accepts .finish then emit .finish s.position s.position
    else throw (.unterminated s.position s.mode.expected)
  else if s.mode = .initial then scanAction
  else if s.mode = .done then return
  else scanClause

/-! ## Calls -/

/-- The first queued token and the scan without it. -/
def pop (s : ByteScan) : Option Token × ByteScan :=
  match s.queue with
  | [] => (none, s)
  | t :: ts => (some t, { s with queue := ts })

/-- The next token, `none` after the last one, or the diagnostic that ends the scan. -/
def next (s : ByteScan) : Option (Except Diagnostic (Option Token) × ByteScan) :=
  if s.queue = [] ∧ s.mode ≠ .done then do
    match ← step.run.run s with
    | (.error d, s) => return (.error d, { s with queue := [], mode := .done })
    | (.ok _, s) => return (.ok s.pop.1, s.pop.2)
  else return (.ok s.pop.1, s.pop.2)

/-- The results of the next `n` calls, and the scan after them. -/
def calls : (n : Nat) → ByteScan →
    Option (List (Except Diagnostic (Option Token)) × ByteScan)
  | 0, s => some ([], s)
  | n + 1, s => do
    let (result, s) ← s.next
    let (results, s) ← calls n s
    return (result :: results, s)

end ByteScan

end DerivedQuery
