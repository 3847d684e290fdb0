import StackEffect.Token.Lexeme
import StackEffect.Token.Spelling

/-! # The rules of the tokens

Each kind of piece that a text falls into has a rule: a regular expression, a priority, and what is
made of a piece that matches. At each place the rule with the longest match is taken; among rules
that match the same piece the priority decides. A rule has a priority of its own or the one that its
expression gives, which grows with the characters that every match has.
-/

namespace StackEffect

inductive Regex
  | empty
  /-- One character of a class. -/
  | char (p : Char → Bool)
  | seq (a b : Regex)
  | alt (a b : Regex)
  | star (a : Regex)

namespace Regex

def plus (a : Regex) : Regex :=
  .seq a (.star a)

def maybe (a : Regex) : Regex :=
  .alt .empty a

def ofText : List Char → Regex
  | [] => .empty
  | c :: cs => .seq (.char (· == c)) (ofText cs)

inductive Matches : Regex → List Char → Prop
  | empty : Matches .empty []
  | char {p : Char → Bool} {c : Char} (h : p c) : Matches (.char p) [c]
  | seq {a b : Regex} {cs ds : List Char} (ha : Matches a cs) (hb : Matches b ds) :
      Matches (.seq a b) (cs ++ ds)
  | left {a b : Regex} {cs : List Char} (h : Matches a cs) : Matches (.alt a b) cs
  | right {a b : Regex} {cs : List Char} (h : Matches b cs) : Matches (.alt a b) cs
  | done {a : Regex} : Matches (.star a) []
  | more {a : Regex} {cs ds : List Char} (ha : Matches a cs) (h : Matches (.star a) ds) :
      Matches (.star a) (cs ++ ds)

/-- The priority that an expression gives: two for each character of its shortest choice, and
nothing for what may be left out. -/
def weight : Regex → Nat
  | empty => 0
  | char _ => 2
  | seq a b => a.weight + b.weight
  | alt a b => min a.weight b.weight
  | star _ => 0

end Regex

inductive Rule
  | blanks
  | comment
  | keyword (k : Keyword)
  | truth (b : Bool)
  | null
  | hex
  | decimal
  | literal
  | word
deriving DecidableEq, Repr

namespace Rule

def regex : Rule → Regex
  | blanks => .plus (.char isBlank)
  | comment => .seq (.ofText ['/', '/']) (.star (.char (· != '\n')))
  | keyword k => .ofText k.text.toList
  | truth true => .ofText "true".toList
  | truth false => .ofText "false".toList
  | null => .ofText "null".toList
  | hex => .seq (.ofText ['0', 'x']) (.plus (.char Spelling.isHexDigit))
  | decimal => .seq (.maybe (.ofText ['-'])) (.plus (.char Char.isDigit))
  | literal =>
    -- An item is a plain character or a backslash with the character behind it.
    let item : Regex := .alt (.char fun c => !(c == '"' || c == '\\'))
      (.seq (.char (· == '\\')) (.char (· != '\n')))
    .seq (.char (· == '"')) (.seq (.star item) (.char (· == '"')))
  | word => .plus (.char fun c => !(isBlank c || c == ':' || c == '"'))

def priority : Rule → Nat
  | hex => 4
  | decimal => 3
  | word => 1
  | rule => rule.regex.weight

/-- Blanks and comments give no token. -/
def isSkipped : Rule → Bool
  | blanks | comment => true
  | _ => false

/-- The token made of a piece. Numbers have to fit in 64 bits, and the escapes of a string literal
have to be known. -/
def token? : Rule → List Char → Option TokenKind
  | blanks, _ | comment, _ => none
  | keyword k, _ => some (.keyword k)
  | truth b, _ => some (.bool b)
  | null, _ => some (.ptr 0)
  | hex, text => Spelling.int? (Spelling.ofDigits 16 (text.drop 2))
  | decimal, '-' :: digits => Spelling.int? (-(Spelling.ofDigits 10 digits : Int))
  | decimal, digits => Spelling.int? (Spelling.ofDigits 10 digits)
  | literal, text => (Spelling.contents? (text.drop 1)).map fun cs => .str (String.ofList cs)
  | word, text => some (.word (String.ofList text))

end Rule

end StackEffect
