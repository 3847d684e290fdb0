/-! # Lexemes

A text falls into lexemes with gaps between them. A gap holds blanks and comments; a comment starts
with two slashes where a lexeme could start and ends before the next newline. A lexeme is a colon, a
string literal, or a longest run of characters that are neither blanks nor colons nor quotes.

The split is a state machine over the characters. It never fails: a literal that is not closed is
the last lexeme, cut before the first character that cannot belong to it.
-/

namespace StackEffect

structure Lexeme where
  start : Nat
  text : List Char
deriving DecidableEq, Repr

def byteLength : List Char → Nat
  | [] => 0
  | c :: cs => c.utf8Size + byteLength cs

namespace Lexeme

def stop (l : Lexeme) : Nat :=
  l.start + byteLength l.text

def extend (l : Lexeme) (cs : List Char) : Lexeme :=
  { l with text := l.text ++ cs }

end Lexeme

def isBlank (c : Char) : Bool :=
  c == ' ' || c == '\t' || c == '\r' || c == '\n' || c == '\x0c'

inductive SplitMode
  /-- Between lexemes. -/
  | gap
  /-- In a comment. -/
  | comment
  /-- In a run. -/
  | run (l : Lexeme)
  /-- In a string literal, with its complete items so far. -/
  | literal (l : Lexeme)
  /-- Behind a backslash in a string literal; the backslash is not part of `l`. -/
  | escape (l : Lexeme)
  /-- Behind a literal that cannot be closed. -/
  | stuck
deriving DecidableEq, Repr

/-- The splitter's state: the lexemes found, the bytes read, and what is under way. -/
structure SplitState where
  done : List Lexeme := []
  pos : Nat := 0
  mode : SplitMode := .gap
deriving DecidableEq, Repr

namespace SplitState

def start (s : SplitState) (c : Char) : SplitState :=
  let l : Lexeme := ⟨s.pos, [c]⟩
  if isBlank c then { s with mode := .gap }
  else if c = ':' then { s with done := s.done ++ [l], mode := .gap }
  else if c = '"' then { s with mode := .literal l }
  else { s with mode := .run l }

/-- Reads a character in a run. A second slash turns a run of one slash into a comment. -/
def continueRun (s : SplitState) (l : Lexeme) (c : Char) : SplitState :=
  if isBlank c || c == ':' || c == '"' then { s with done := s.done ++ [l] }.start c
  else if c = '/' ∧ l.text = ['/'] then { s with mode := .comment }
  else { s with mode := .run (l.extend [c]) }

def continueLiteral (s : SplitState) (l : Lexeme) (c : Char) : SplitState :=
  if c = '"' then { s with done := s.done ++ [l.extend [c]], mode := .gap }
  else if c = '\\' then { s with mode := .escape l }
  else { s with mode := .literal (l.extend [c]) }

def read (s : SplitState) (c : Char) : SplitState :=
  match s.mode with
  | .gap => s.start c
  | .comment => if c = '\n' then { s with mode := .gap } else s
  | .run l => s.continueRun l c
  | .literal l => s.continueLiteral l c
  | .escape l =>
    if c = '\n' then { s with done := s.done ++ [l], mode := .stuck }
    else { s with mode := .literal (l.extend ['\\', c]) }
  | .stuck => s

def step (s : SplitState) (c : Char) : SplitState :=
  let next := s.read c
  { next with pos := s.pos + c.utf8Size }

def finish (s : SplitState) : List Lexeme :=
  match s.mode with
  | .run l | .literal l | .escape l => s.done ++ [l]
  | .gap | .comment | .stuck => s.done

end SplitState

def lexemes (cs : List Char) : List Lexeme :=
  (cs.foldl SplitState.step {}).finish

end StackEffect
