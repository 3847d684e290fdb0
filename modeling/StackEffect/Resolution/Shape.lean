import StackEffect.Fold
import StackEffect.Resolution

/-! # The shapes of declarations

The tokens behind an unknown word decide what it declares. First the colons at the front are
counted: none stand before a struct definition or a typed scalar, one before a struct variable, a
struct constant or a memory region, two before a constant or a procedure.
-/

namespace StackEffect

inductive Shape
  /-- `Name struct member type [default] ... end` -/
  | struct
  /-- `name type [value] end` -/
  | var (ty : Ty)
  /-- `name type :: value end` -/
  | const (ty : Ty)
  /-- `name : Struct [values] end` -/
  | structVar (id : Nat) (d : StructDef)
  /-- `name : Struct :: values end` -/
  | structConst (id : Nat) (d : StructDef)
  /-- `name : size end` -/
  | memory
  /-- `name :: value end`, with the value and the tokens that it takes. -/
  | untyped (value : Value) (consumed : Nat)
  /-- `name :: [types] [-> types] body end` -/
  | proc
deriving DecidableEq, Repr

namespace Token

def isColon (t : Token) : Bool :=
  t.kind == .keyword .colon

def type? (sym : Symbols) (t : Token) : Option Ty :=
  match t.kind with
  | .keyword k => k.scalar?
  | .word w => (sym.findStruct? w).map (.struct ·.1)
  | _ => none

end Token

namespace Shape

def startsConst (tokens : List Token) : Bool :=
  (tokens.take 2).length == 2 && (tokens.take 2).all Token.isColon

def ofPlain (name : String) (loc : Location) (rest : List Token) : Except Fault Shape :=
  let undeclared : Except Fault Shape := .error ((Cause.undeclaredWord name).fault loc)
  match rest with
  | ⟨.keyword .structKw, _⟩ :: _ => .ok .struct
  | ⟨.keyword k, _⟩ :: tail =>
    match k.scalar? with
    | some ty => .ok (if startsConst tail then .const ty else .var ty)
    | none => undeclared
  | _ => undeclared

def ofColon (sym : Symbols) (name : String) (eof : Location) (rest : List Token) :
    Except Fault Shape :=
  match rest with
  | [] => .error ((Cause.unfinishedDeclaration name).fault eof)
  | t :: tail =>
    match t.kind with
    | .word w =>
      match sym.findStruct? w with
      | some (id, d) => .ok (if startsConst tail then .structConst id d else .structVar id d)
      | none =>
        if (sym.findConst? w).isSome then .ok .memory
        else .error ((Cause.unknownStruct w name).fault t.loc)
    | .int _ => .ok .memory
    | _ => .error ((Cause.notStructOrSize name t.kind.describe).fault t.loc)

/-- The shape behind a word and two colons: a constant if what follows folds to one value. -/
def ofColons (sym : Symbols) (eof : Location) (rest : List Token) : Shape :=
  match Folded.ofTokens sym eof rest with
  | .ok ⟨[v], consumed⟩ => .untyped v consumed
  | _ => .proc

def classify (sym : Symbols) (name : String) (loc eof : Location) (rest : List Token) :
    Except Fault Shape :=
  match (rest.takeWhile Token.isColon).length with
  | 0 => ofPlain name loc rest
  | 1 => ofColon sym name eof (rest.drop 1)
  | 2 => .ok (ofColons sym eof (rest.drop 2))
  | _ => .error ((Cause.extraColon name).fault ((rest[2]?).elim loc (·.loc)))

end Shape

end StackEffect
