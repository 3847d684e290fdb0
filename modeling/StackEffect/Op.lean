import StackEffect.Intrinsic
import StackEffect.Location

/-! # Operations

A program is a flat list of operations. Blocks are bracketed by pairs of operations, and an
operation that goes on with a block or closes it names the index of the one that opened it.
-/

namespace StackEffect

inductive Scope
  | global
  /-- In the frame of a procedure. -/
  | frame (proc : Nat)
deriving DecidableEq, Repr

structure Ref where
  scope : Scope
  index : Nat
deriving DecidableEq, Repr

/-- What is wanted of a struct member: its value or its address. -/
inductive MemberAccess
  | load
  | addr
deriving DecidableEq, Repr

inductive OpKind
  | pushInt (n : Int64)
  | pushBool (b : Bool)
  | pushPtr (n : Int64)
  /-- Pushes the length in bytes, then the address. -/
  | pushStr (id : Nat)
  | intrinsic (i : Intrinsic)
  /-- Gives the top of the stack another type. -/
  | cast (ty : Ty)
  | pushMem (ref : Ref)
  | call (proc : Nat)
  /-- Pushes a bound value; the one bound last has depth zero. -/
  | pushBinding (depth : Nat)
  | loadVar (ref : Ref) (ty : Ty)
  | storeVar (ref : Ref) (ty : Ty)
  | varAddr (ref : Ref) (ty : Ty)
  /-- The offset is known once the type of the receiver is. -/
  | member (access : MemberAccess) (name : String) (offset : Option Nat)
  | ifBegin
  | ifElse (opener : Nat)
  /-- Closes an `if` that has no `else`. -/
  | ifEnd (opener : Nat)
  /-- Closes an `if` that has an `else`. -/
  | elseEnd (opener : Nat)
  | bind (count : Nat)
  | unbind (count : Nat)
  | procBegin (proc : Nat)
  /-- Leaves a procedure and frees the bytes of its frame. -/
  | procEnd (proc : Nat) (frame : Nat)
deriving DecidableEq, Repr

structure Op where
  kind : OpKind
  loc : Location
deriving DecidableEq, Repr

namespace Scope

def text : Scope → String
  | global => "global"
  | frame p => s!"local(proc {p})"

end Scope

namespace Ref

def text (r : Ref) : String :=
  s!"{r.scope.text}#{r.index}"

end Ref

namespace MemberAccess

def text : MemberAccess → String
  | load => "member.load"
  | addr => "member.addr"

end MemberAccess

namespace OpKind

def text : OpKind → String
  | pushInt n => s!"push.int {n}"
  | pushBool b => if b then "push.bool 1" else "push.bool 0"
  | pushPtr n => s!"push.ptr {n}"
  | pushStr id => s!"push.str {id}"
  | intrinsic i => i.name
  | cast ty => s!"cast {ty.text}"
  | pushMem ref => s!"push.mem {ref.text}"
  | call p => s!"call {p}"
  | pushBinding depth => s!"push.bind {depth}"
  | loadVar ref ty => s!"load {ref.text} : {ty.text}"
  | storeVar ref ty => s!"store {ref.text} : {ty.text}"
  | varAddr ref ty => s!"addr {ref.text} : {ty.text}"
  | member access _ (some offset) => s!"{access.text} +{offset}"
  | member access _ none => s!"{access.text} ?"
  | ifBegin => "if"
  | ifElse opener => s!"else (if @{opener})"
  | ifEnd opener => s!"end.if (if @{opener})"
  | elseEnd opener => s!"end.else (if @{opener})"
  | bind n => s!"bind {n}"
  | unbind n => s!"unbind {n}"
  | procBegin p => s!"proc.begin {p}"
  | procEnd p frame => s!"proc.end {p} (free {frame})"

end OpKind

end StackEffect
