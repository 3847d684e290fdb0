import StackEffect.Diagnostic.Label

/-! # Inks

Snippets are written in colours: what marks the rejection is red, what explains it and what frames
the source is blue. A change of ink is an escape sequence of the terminal, and every change starts
from plain ink.
-/

namespace StackEffect.Ink

def plain : String := "\x1b[0m"

def red : String := plain ++ "\x1b[31m"

def blue : String := plain ++ "\x1b[34m"

def bold : String := plain ++ "\x1b[1m"

def boldRed : String := bold ++ "\x1b[38;5;9m"

def ofLabel : LabelStyle → String
  | .primary => red
  | .secondary => blue

def framed (text : String) : String :=
  blue ++ text ++ plain

def labelled (style : LabelStyle) (text : String) : String :=
  ofLabel style ++ text ++ plain

/-- Texts one after the other, each in the ink of a label or plain, when the ink is that of
`before`. The ink is changed only where it has to be, and is plain at the end. -/
def writeFrom : Option LabelStyle → List (Option LabelStyle × String) → String
  | before, [] => if before.isSome then plain else ""
  | before, (style, text) :: rest =>
    (if style = before then "" else style.elim plain ofLabel) ++ text ++ writeFrom style rest

def write (texts : List (Option LabelStyle × String)) : String :=
  writeFrom none texts

end StackEffect.Ink
