import DerivedQuery.Text

/-!
# Styles

Colours and weights of a terminal. A styled text stands between a code that starts the style and
one that resets it; where the text resets the style itself, it is started again.

* `Style`, with the styles in use;
* `Style.paint`: a styled text, `Style.paintPadded`: one of a given width.
-/

namespace DerivedQuery

/-- A style, as the numbers of its code. -/
structure Style where
  code : String

namespace Style

def bold : Style := ⟨"1"⟩
def dimmed : Style := ⟨"2"⟩
def red : Style := ⟨"31"⟩
def green : Style := ⟨"32"⟩
def yellow : Style := ⟨"33"⟩
def cyan : Style := ⟨"36"⟩
def white : Style := ⟨"37"⟩

/-- The bold form of a style. -/
def emphasized (s : Style) : Style := ⟨bold.code ++ ";" ++ s.code⟩

/-- What starts the style. -/
def start (s : Style) : Text := "\x1b[".toList ++ s.code.toList ++ ['m']

/-- What ends every style. -/
def reset : Text := "\x1b[0m".toList

/-- The text with the style started again after every reset within it. -/
def restart (start : Text) : Text → Text
  | '\x1b' :: '[' :: '0' :: 'm' :: cs => reset ++ start ++ restart start cs
  | c :: cs => c :: restart start cs
  | [] => []

/-- Blanks to be put after or before a text of fewer than `width` characters. -/
def padding (width : Nat) (text : Text) : Text := List.replicate (width - text.length) ' '

/-- The text in the style, if colours are wanted. The text that stands between the codes is given
the chance to be padded. -/
def wrap (colored : Bool) (s : Style) (pad : Text → Text) (text : Text) : String :=
  String.ofList <|
    if colored then s.start ++ pad (restart s.start text) ++ reset else pad text

/-- A text in the style. -/
def paint (colored : Bool) (s : Style) (text : String) : String :=
  s.wrap colored id text.toList

/-- A text in the style, with blanks after it up to the width. -/
def paintPadded (colored : Bool) (s : Style) (width : Nat) (text : String) : String :=
  s.wrap colored (fun t => t ++ padding width t) text.toList

/-- A text in the style, with blanks before it up to the width. -/
def paintAligned (colored : Bool) (s : Style) (width : Nat) (text : String) : String :=
  s.wrap colored (fun t => padding width t ++ t) text.toList

end Style

end DerivedQuery
