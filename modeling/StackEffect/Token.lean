import StackEffect.Location
import StackEffect.Lexicon
import StackEffect.Ty

/-! # Tokens

A source text is a list of tokens, each at a place: reserved words and punctuation, literals, and
words, whose meaning depends on what has been declared.
-/

namespace StackEffect

inductive Keyword
  | ifKw | elseKw | endKw | letKw | structKw | intKw | boolKw | ptrKw | arrow | colon
deriving DecidableEq, Repr

namespace Keyword

def all : List Keyword :=
  [ifKw, elseKw, endKw, letKw, structKw, intKw, boolKw, ptrKw, arrow, colon]

def text : Keyword → String
  | ifKw => "if"
  | elseKw => "else"
  | endKw => "end"
  | letKw => "let"
  | structKw => "struct"
  | intKw => "int"
  | boolKw => "bool"
  | ptrKw => "ptr"
  | arrow => "->"
  | colon => ":"

def ofText? (text : String) : Option Keyword :=
  all.find? (·.text == text)

def scalar? : Keyword → Option Ty
  | intKw => some .int
  | boolKw => some .bool
  | ptrKw => some .ptr
  | _ => none

end Keyword

inductive TokenKind
  | keyword (k : Keyword)
  | word (text : String)
  | int (n : Int64)
  | bool (b : Bool)
  | ptr (n : Int64)
  | str (text : String)
deriving DecidableEq, Repr

namespace TokenKind

def describe : TokenKind → String
  | keyword k => s!"keyword `{k.text}`"
  | word text => s!"word `{text}`"
  | int n => s!"integer `{n}`"
  | bool b => s!"boolean `{b}`"
  | ptr n => s!"pointer `{n}`"
  | str _ => "string literal"

def word? : TokenKind → Option String
  | word text => some text
  | _ => none

def str? : TokenKind → Option String
  | str text => some text
  | _ => none

/-- The value of a literal that fits in one cell. -/
def literal? : TokenKind → Option Value
  | int n => some (.int n)
  | bool b => some (.bool b)
  | ptr n => some (.ptr n)
  | _ => none

end TokenKind

structure Token where
  kind : TokenKind
  loc : Location
deriving DecidableEq, Repr

structure TokenStream where
  tokens : List Token
  eof : Location
deriving DecidableEq, Repr

namespace TokenStream

/-- The token `offset` places ahead; the next one has offset zero. -/
def peek? (s : TokenStream) (offset : Nat) : Option Token :=
  s.tokens[offset]?

def advance (s : TokenStream) (count : Nat) : TokenStream :=
  { s with tokens := s.tokens.drop count }

def words (s : TokenStream) : Lexicon :=
  .ofList (s.tokens.filterMap (·.kind.word?))

def strings (s : TokenStream) : Lexicon :=
  .ofList (s.tokens.filterMap (·.kind.str?))

end TokenStream

end StackEffect
