import DerivedQuery.Run

/-!
# Scans

A scan walks over a name from left to right and hands out its tokens one by one. It cuts a whole
run at once, and hands out what it has cut before it cuts again; so its mode and its position may
be ahead of the token that was handed out last.

* `Move`, `moves`: the pieces of a run, placed and led through the table of modes;
* `Scan`, `Scan.ofName`, `Scan.step`, `Scan.next`;
* `Scan.trace`: every move of a scan, those of a run that fails included;
* `Transcript`, `Scan.transcript`: the tokens of a scan and the diagnostic that cuts it short.
-/

namespace DerivedQuery

/-- A token and the modes before and after it. -/
structure Move where
  token : Token
  source : Mode
  target : Mode
  deriving DecidableEq, Repr

/-- The moves of pieces that begin at the position in the mode. The first piece that the table of
modes refuses stops them with a diagnostic. -/
def moves (mode : Mode) (position : Nat) : List Piece → List Move × Option Diagnostic
  | [] => ([], none)
  | p :: ps =>
    match mode.next? p.kind with
    | none => ([], some (.malformed position mode.expected))
    | some target =>
      let later := moves target (position + byteLength p.text) ps
      (⟨⟨p.kind, p.text, position⟩, mode, target⟩ :: later.1, later.2)

/-- A scan in progress. -/
structure Scan where
  settings : Settings
  mode : Mode
  /-- The number of bytes of the name that have been cut. -/
  position : Nat
  /-- The last character that has been cut. -/
  previous : Option Char
  /-- What has not been cut yet. -/
  rest : Text
  /-- Tokens that have been cut and not yet handed out. -/
  queue : List Token
  /-- Whether an action on many records has been cut. -/
  isBulk : Bool
  deriving DecidableEq, Repr

namespace Scan

/-- The scan of a name before its first token. -/
def ofName (settings : Settings) (name : Text) : Scan where
  settings := settings
  mode := .initial
  position := 0
  previous := none
  rest := name
  queue := []
  isBulk := false

/-- Whether a token is an action on many records. -/
def isBulkAction : Kind → Bool
  | .action a => a.isBulk
  | _ => false

/-- The scan past the token of a move; the token itself is not queued. -/
def pass (s : Scan) (m : Move) : Scan :=
  { s with
    mode := m.target
    position := s.position + byteLength m.token.text
    previous := m.token.text.getLast?.or s.previous
    rest := s.rest.drop m.token.text.length
    isBulk := s.isBulk || isBulkAction m.token.kind }

/-- The run that comes next. -/
def run (s : Scan) : Run := nextRun s.settings s.mode s.isBulk s.previous s.rest

/-- The moves that come next, and the diagnostic if the table of modes refuses a piece. -/
def upcoming (s : Scan) : List Move × Option Diagnostic := moves s.mode s.position s.run.pieces

/-- The scan after the next run is cut and queued, and the diagnostic if it fails. -/
def step (s : Scan) : Scan × Option Diagnostic :=
  let upcoming := s.upcoming
  let passed := upcoming.1.foldl pass s
  ({ passed with queue := s.queue ++ upcoming.1.map Move.token },
    upcoming.2.or (s.run.fault.map (Diagnostic.shift passed.position)))

/-- The scan that has failed: nothing is queued and nothing follows. -/
def abandon (s : Scan) : Scan := { s with queue := [], mode := .done }

/-- The first queued token and the scan without it. -/
def pop (s : Scan) : Option Token × Scan :=
  match s.queue with
  | [] => (none, s)
  | t :: ts => (some t, { s with queue := ts })

/-- The next token, `none` after the last one, or the diagnostic that ends the scan; and the scan
after it. -/
def next (s : Scan) : Except Diagnostic (Option Token) × Scan :=
  if s.queue = [] ∧ s.mode ≠ .done then
    match s.step with
    | (failed, some d) => (.error d, failed.abandon)
    | (s, none) => (.ok s.pop.1, s.pop.2)
  else (.ok s.pop.1, s.pop.2)

/-! ## Whole scans -/

/-- Moves of the next `fuel` runs. -/
def traceFor : (fuel : Nat) → Scan → List Move
  | 0, _ => []
  | fuel + 1, s =>
    if s.mode = .done then []
    else
      match s.step with
      | (_, some _) => s.upcoming.1
      | (s', none) => s.upcoming.1 ++ traceFor fuel { s' with queue := [] }

/-- The most calls of `next` that a name needs: one for every byte, one for the end of the name
and one for the end of the scan. -/
def callLimit (name : Text) : Nat := byteLength name + 2

/-- Every move of the scan of a name. -/
def trace (settings : Settings) (name : Text) : List Move :=
  traceFor (callLimit name) (ofName settings name)

end Scan

/-- What a scan hands out: its tokens, and the diagnostic that cuts them short. -/
structure Transcript where
  tokens : List Token
  fault : Option Diagnostic
  deriving DecidableEq, Repr

namespace Scan

/-- What the next `fuel` calls of `next` hand out. -/
def transcriptFor : (fuel : Nat) → Scan → Transcript
  | 0, _ => ⟨[], none⟩
  | fuel + 1, s =>
    match s.next with
    | (.error d, _) => ⟨[], some d⟩
    | (.ok none, _) => ⟨[], none⟩
    | (.ok (some t), s) =>
      let later := transcriptFor fuel s
      { later with tokens := t :: later.tokens }

/-- What the scan of a name hands out. -/
def transcript (settings : Settings) (name : Text) : Transcript :=
  transcriptFor (callLimit name) (ofName settings name)

end Scan

end DerivedQuery
