import StackEffect.Ty

/-! # Primitive words and their stack signatures

Each primitive takes a fixed number of operands and leaves a fixed number of results. A signature
lists both with the bottom of the stack first.
-/

namespace StackEffect

inductive Intrinsic
  | add | sub | mul | div | mod | shl | shr
  | eq | ne | lt | gt | le | ge
  | and | or | not
  | dup | drop | swap | dupUnder | rot
  | load | store | load8 | store8
  | print
deriving DecidableEq, Repr

/-- What a primitive asks of an operand. -/
inductive Operand
  /-- A value of this type. -/
  | exact (ty : Ty)
  /-- Any value. -/
  | any
  /-- A value of the type that all such operands share. -/
  | same
deriving DecidableEq, Repr

/-- What a primitive leaves on the stack. -/
inductive Outcome
  /-- A value of this type. -/
  | exact (ty : Ty)
  /-- A value of the type that the `same` operands share. -/
  | same
  /-- The operand at this position, counted from the bottom. -/
  | input (i : Nat)
deriving DecidableEq, Repr

/-- Operands and results of a primitive, bottom first. -/
structure Signature where
  ins : List Operand
  outs : List Outcome
deriving DecidableEq, Repr

namespace Intrinsic

def all : List Intrinsic :=
  [add, sub, mul, div, mod, shl, shr, eq, ne, lt, gt, le, ge, and, or, not, dup, drop, swap,
    dupUnder, rot, load, store, load8, store8, print]

def name : Intrinsic → String
  | add => "+" | sub => "-" | mul => "*" | div => "/" | mod => "%" | shl => "<<" | shr => ">>"
  | eq => "=" | ne => "!=" | lt => "<" | gt => ">" | le => "<=" | ge => ">="
  | and => "and" | or => "or" | not => "not"
  | dup => "dup" | drop => "drop" | swap => "swap" | dupUnder => "over" | rot => "rot"
  | load => "@" | store => "!" | load8 => "@8" | store8 => "!8"
  | print => "print"

def ofName? (text : String) : Option Intrinsic :=
  all.find? (·.name == text)

def signature : Intrinsic → Signature
  | add | sub | and | or => ⟨[.same, .same], [.same]⟩
  | mul | div | mod | shl | shr => ⟨[.exact .int, .exact .int], [.exact .int]⟩
  | eq | ne => ⟨[.same, .same], [.exact .bool]⟩
  | lt | gt | le | ge => ⟨[.exact .int, .exact .int], [.exact .bool]⟩
  | not => ⟨[.exact .bool], [.exact .bool]⟩
  | dup => ⟨[.any], [.input 0, .input 0]⟩
  | drop => ⟨[.any], []⟩
  | swap => ⟨[.any, .any], [.input 1, .input 0]⟩
  | dupUnder => ⟨[.any, .any], [.input 0, .input 1, .input 0]⟩
  | rot => ⟨[.any, .any, .any], [.input 1, .input 2, .input 0]⟩
  | load | load8 => ⟨[.exact .ptr], [.exact .int]⟩
  | store | store8 => ⟨[.exact .int, .exact .ptr], []⟩
  | print => ⟨[.exact .int], []⟩

end Intrinsic

end StackEffect
