import StackEffect.Token

/-! # What a lexeme spells

The text of a lexeme alone decides which token it is. Some texts spell no token: an integer that
does not fit in 64 bits, a string literal that is not closed, and one with an unknown escape.
-/

namespace StackEffect.Spelling

def escaped? : Char → Option Char
  | 'n' => some '\n'
  | 't' => some '\t'
  | 'r' => some '\r'
  | '0' => some '\x00'
  | '\\' => some '\\'
  | '"' => some '"'
  | _ => none

/-- The contents of a string literal, read behind its opening quote up to its closing quote, which
has to be the last character. -/
def contents? : List Char → Option (List Char)
  | [] => none
  | '"' :: cs => if cs.isEmpty then some [] else none
  | ['\\'] => none
  | '\\' :: c :: cs =>
    match escaped? c, contents? cs with
    | some d, some ds => some (d :: ds)
    | _, _ => none
  | c :: cs => (contents? cs).map (c :: ·)

def digitValue (c : Char) : Nat :=
  if c.isDigit then c.toNat - '0'.toNat
  else if 'a' ≤ c ∧ c ≤ 'f' then c.toNat - 'a'.toNat + 10
  else c.toNat - 'A'.toNat + 10

def isHexDigit (c : Char) : Bool :=
  c.isDigit || ('a' ≤ c && c ≤ 'f') || ('A' ≤ c && c ≤ 'F')

def ofDigits (base : Nat) (digits : List Char) : Nat :=
  digits.foldl (fun n c => n * base + digitValue c) 0

/-- The number that a run writes: decimal digits behind an optional minus sign, or `0x` and
hexadecimal digits. -/
def number? (text : List Char) : Option Int :=
  match text with
  | '0' :: 'x' :: digits =>
    if digits ≠ [] ∧ digits.all isHexDigit then some (ofDigits 16 digits) else none
  | '-' :: digits =>
    if digits ≠ [] ∧ digits.all Char.isDigit then some (-(ofDigits 10 digits : Int)) else none
  | digits => if digits ≠ [] ∧ digits.all Char.isDigit then some (ofDigits 10 digits) else none

/-- The integer literal for a number, if it fits in 64 bits. -/
def int? (n : Int) : Option TokenKind :=
  if Int64.minValue.toInt ≤ n ∧ n ≤ Int64.maxValue.toInt then some (.int (.ofInt n)) else none

/-- The token that a run of letters spells when it is no number. -/
def ofWord (text : String) : TokenKind :=
  match Keyword.ofText? text with
  | some k => .keyword k
  | none =>
    if text = "true" then .bool true
    else if text = "false" then .bool false
    else if text = "null" then .ptr 0
    else .word text

def kind? (text : List Char) : Option TokenKind :=
  match text with
  | '"' :: body => (contents? body).map fun cs => .str (String.ofList cs)
  | _ =>
    match number? text with
    | some n => int? n
    | none => some (ofWord (String.ofList text))

end StackEffect.Spelling
