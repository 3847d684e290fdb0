import StackEffect.Diagnostic.Cause
import StackEffect.Symbols
import StackEffect.Token

/-! # Constant expressions

An initializer is a postfix expression that ends with `end`. It is evaluated on a stack of values,
kept here with the top first, from literals, the words that shuffle the stack, a few operators,
casts and constants declared before. Arithmetic wraps around at 64 bits.
-/

namespace StackEffect

/-- The values an initializer leaves, bottom first, and the number of tokens read, `end` included.
An initializer that leaves nothing elides its value. -/
structure Folded where
  values : List Value
  consumed : Nat
deriving DecidableEq, Repr

namespace Fold

/-- The complaint of a word that finds too few values. -/
def underflow (word : String) (loc : Location) : Except Fault (List Value) :=
  .error ((Cause.foldUnderflow word).fault loc)

/-- Applies an operator to the two values on top, which have to share a type. -/
def binary (sym : Symbols) (word : String) (loc : Location)
    (f : Value → Value → Except Fault Value) : List Value → Except Fault (List Value)
  | top :: below :: st =>
    if below.ty = top.ty then (f below top).map (· :: st)
    else
      .error ((Cause.foldOperands word (sym.typeName below.ty) (sym.typeName top.ty)).fault loc)
  | _ => underflow word loc

def product (sym : Symbols) (loc : Location) (a b : Value) : Except Fault Value :=
  if a.ty = .int then .ok (.int (a.bits * b.bits))
  else .error ((Cause.foldProduct (sym.typeName a.ty)).fault loc)

def intrinsic? (sym : Symbols) (loc : Location) (i : Intrinsic) :
    Option (List Value → Except Fault (List Value)) :=
  match i with
  | .dup => some fun
    | a :: st => .ok (a :: a :: st)
    | _ => underflow i.name loc
  | .drop => some fun
    | _ :: st => .ok st
    | _ => underflow i.name loc
  | .swap => some fun
    | b :: a :: st => .ok (a :: b :: st)
    | _ => underflow i.name loc
  | .dupUnder => some fun
    | b :: a :: st => .ok (a :: b :: a :: st)
    | _ => underflow i.name loc
  | .rot => some fun
    | c :: b :: a :: st => .ok (a :: c :: b :: st)
    | _ => underflow i.name loc
  | .add => some (binary sym i.name loc fun a b => .ok ⟨a.bits + b.bits, a.ty⟩)
  | .sub => some (binary sym i.name loc fun a b => .ok ⟨a.bits - b.bits, a.ty⟩)
  | .mul => some (binary sym i.name loc (product sym loc))
  | .eq => some (binary sym i.name loc fun a b => .ok (.bool (a.bits == b.bits)))
  | .ne => some (binary sym i.name loc fun a b => .ok (.bool (a.bits != b.bits)))
  | _ => none

/-- Gives the value on top another type. The target is looked at before the stack is. -/
def cast (sym : Symbols) (word target : String) (loc : Location) (st : List Value) :
    Except Fault (List Value) :=
  match sym.castTarget? target, st with
  | none, _ => .error ((Cause.foldCast target).fault loc)
  | some ty, v :: st => .ok (⟨v.bits, ty⟩ :: st)
  | some _, [] => underflow word loc

/-- Pushes a constant, or all members of a struct constant. -/
def constant (sym : Symbols) (word : String) (loc : Location) (st : List Value) :
    Except Fault (List Value) :=
  match sym.findStructConst? word with
  | some (_, c) => .ok ((sym.constValues c).reverse ++ st)
  | none =>
    match sym.findConst? word with
    | some (_, c) => .ok (c.value :: st)
    | none => .error ((Cause.notFoldable word).fault loc)

def word (sym : Symbols) (text : String) (loc : Location) (st : List Value) :
    Except Fault (List Value) :=
  match (Intrinsic.ofName? text).bind (intrinsic? sym loc) with
  | some effect => effect st
  | none =>
    match stripSigil? '#' text with
    | some target => cast sym text target loc st
    | none => constant sym text loc st

def token (sym : Symbols) (t : Token) (st : List Value) : Except Fault (List Value) :=
  match t.kind with
  | .int n => .ok (.int n :: st)
  | .bool b => .ok (.bool b :: st)
  | .ptr n => .ok (.ptr n :: st)
  | .word text => word sym text t.loc st
  | .keyword _ | .str _ => .error ((Cause.notConstant t.kind.describe).fault t.loc)

/-- Evaluates tokens from a stack up to the first `end`, when `count` tokens have been read before.
-/
def run (sym : Symbols) (eof : Location) : List Value → Nat → List Token → Except Fault Folded
  | _, _, [] => .error (Cause.unclosedExpression.fault eof)
  | st, count, t :: ts =>
    if t.kind = .keyword .endKw then .ok ⟨st.reverse, count + 1⟩
    else
      match token sym t st with
      | .ok st => run sym eof st (count + 1) ts
      | .error f => .error f

end Fold

namespace Folded

def ofTokens (sym : Symbols) (eof : Location) (tokens : List Token) : Except Fault Folded :=
  Fold.run sym eof [] 0 tokens

def isElided (f : Folded) : Bool :=
  f.values.isEmpty

def require (f : Folded) (count : Nat) (what : String) (loc : Location) :
    Except Fault (List Value) :=
  if f.isElided then .error ((Cause.emptyInitializer what).fault loc)
  else if f.values.length = count then .ok f.values
  else .error ((Cause.initializerCount what count f.values.length).fault loc)

/-- Asks for a given number of values, or for none at all where that is allowed. -/
def expect (f : Folded) (count : Nat) (mayElide : Bool) (what : String) (loc : Location) :
    Except Fault (Option (List Value)) :=
  if mayElide && f.isElided then .ok none else (f.require count what loc).map some

def single (f : Folded) (what : String) (loc : Location) : Except Fault Value :=
  match f.values with
  | [] => .error ((Cause.emptyInitializer what).fault loc)
  | [v] => .ok v
  | vs => .error ((Cause.initializerCount what 1 vs.length).fault loc)

end Folded

end StackEffect
