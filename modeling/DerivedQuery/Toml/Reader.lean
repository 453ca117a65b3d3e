import DerivedQuery.Text

/-!
# Readers

A reader takes something off the front of a text, or fails.

* `Reader`, with `Reader.char`, `Reader.word`, `Reader.span`, `Reader.finished`;
* `Reader.blanks`, `Reader.newline`, `Reader.lineEnd`: what stands between the parts of a line;
* `Reader.spacing`: what stands between the items of an array.
-/

namespace DerivedQuery.Toml

/-- Takes something off the front of a text, or fails. -/
abbrev Reader := StateT Text Option

/-- Blanks within a line. -/
def isBlank (c : Char) : Bool := c == ' ' || c == '\t'

/-- Characters that comments and strings may hold as they are: no controls but the tab. -/
def isPlain (c : Char) : Bool := c == '\t' || (' ' ≤ c && c != '\x7f')

namespace Reader

/-- One character of a class. -/
def char (p : Char → Bool) : Reader Char
  | [] => none
  | c :: cs => if p c then some (c, cs) else none

/-- A fixed text. -/
def word (w : Text) : Reader Unit := fun text => (w.isPrefixOf? text).map fun rest => ((), rest)

/-- All characters of a class at the front. -/
def span (p : Char → Bool) : Reader Text := fun text => some (text.span p)

/-- The end of the text. -/
def finished : Reader Unit := fun text => if text = [] then some ((), []) else none

def blanks : Reader Unit := discard (span isBlank)

def newline : Reader Unit := word ['\n'] <|> word ['\r', '\n']

/-- A comment up to the end of its line. -/
def comment : Reader Unit := do
  word ['#']
  discard (span isPlain)

/-- The rest of a line after its content: at most blanks and a comment. -/
def lineEnd : Reader Unit := do
  blanks
  discard (optional comment)
  newline <|> finished

/-- What is left after blanks, comments and line ends; a comment has to end with its line. -/
def skipSpacing (inComment : Bool) : Text → Option Text
  | [] => if inComment then none else some []
  | '\n' :: cs => skipSpacing false cs
  | '\r' :: '\n' :: cs => skipSpacing false cs
  | c :: cs =>
    if inComment then if isPlain c then skipSpacing true cs else none
    else if isBlank c then skipSpacing false cs
    else if c = '#' then skipSpacing true cs
    else some (c :: cs)

/-- Blanks, comments and line ends. -/
def spacing : Reader Unit := fun text => (skipSpacing false text).map fun rest => ((), rest)

end Reader

end DerivedQuery.Toml
