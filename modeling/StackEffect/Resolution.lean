import StackEffect.Lexicon
import StackEffect.Op.Code
import StackEffect.Symbols

/-! # The state of word resolution

Words get their meaning in one pass over the tokens. The state holds what has been declared, the
code emitted, the string literals met, and the procedure whose body is being read.
-/

namespace StackEffect

/-- What is known after a part of the tokens. -/
structure Resolution where
  strings : Lexicon := {}
  symbols : Symbols := {}
  code : Code := {}
  /-- The procedure whose body is being read. -/
  current : Option Nat := none
deriving DecidableEq, Repr

namespace Resolution

/-- The procedure whose body is being read, with its number. -/
def procedure? (r : Resolution) : Option (Nat × Procedure) :=
  r.current.bind fun id => r.symbols.procs[id]?.map fun p => (id, p)

/-- The procedure whose body is being read, for something that stands only there. -/
def requireProcedure (r : Resolution) (what : String) (loc : Location) :
    Except Fault (Nat × Procedure) :=
  match r.procedure? with
  | some found => .ok found
  | none => .error ((Cause.outsideProcedure what).fault loc)

def setProcedure (r : Resolution) (id : Nat) (p : Procedure) : Resolution :=
  { r with symbols := r.symbols.modifyProc id fun _ => p }

def emitAll (r : Resolution) (kinds : List OpKind) (loc : Location) : Resolution :=
  { r with code := r.code.emitAll kinds loc }

end Resolution

end StackEffect
