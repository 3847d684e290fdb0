import Std.Data.HashMap

/-! # The pool of string literals

String literals are laid out in the order in which they first appear, each with the bytes that it
takes. Beside the list stands an index from contents to numbers, so that a literal that is there
already is found without going through the list. Numbers are 32-bit words.
-/

namespace StackEffect

structure Literal where
  text : String
  size : Nat
deriving DecidableEq, Repr

/-- Literals with different contents, numbered from zero by first appearance. -/
structure LiteralPool where
  literals : List Literal := []
  numbers : Std.HashMap String UInt32 := ∅

namespace LiteralPool

/-- Finds the number of a literal, or lays it out behind the others. -/
def intern (p : LiteralPool) (text : String) : LiteralPool × UInt32 :=
  match p.numbers[text]? with
  | some id => (p, id)
  | none =>
    let id := UInt32.ofNat p.literals.length
    (⟨p.literals ++ [⟨text, text.utf8ByteSize⟩], p.numbers.insert text id⟩, id)

def get? (p : LiteralPool) (id : UInt32) : Option Literal :=
  p.literals[id.toNat]?

def entries (p : LiteralPool) : List (UInt32 × Literal) :=
  p.literals.zipIdx.map fun (l, i) => (.ofNat i, l)

end LiteralPool

end StackEffect
