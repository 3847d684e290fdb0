import StackEffect.Resolution

/-! # The meaning of words

A word is looked up in a fixed order: struct constants, member access, bindings, primitives, casts,
memory regions, procedures, constants and at last variables. What is found first counts. A word that
is not found starts a declaration.
-/

namespace StackEffect

/-- What a word asks of a variable: its value, a store to it, or its address. -/
inductive Access
  | load
  | store
  | addr
deriving DecidableEq, Repr

/-- The operations that a word stands for, and the place where it was declared if it was. -/
structure Meaning where
  ops : List OpKind
  declared : Option Location := none
deriving DecidableEq, Repr

def Value.pushes (v : Value) : List OpKind :=
  match v.ty with
  | .int | .any => [.pushInt v.bits]
  | .bool => [.pushBool (v.bits != 0)]
  | .ptr => [.pushPtr v.bits]
  | .struct _ => [.pushPtr v.bits, .cast v.ty]

namespace Access

/-- The access that a word asks for, and the name of the variable. -/
def ofWord (text : String) : Access × String :=
  match stripSigil? '!' text with
  | some name => (.store, name)
  | none =>
    match stripSigil? '*' text with
    | some name => (.addr, name)
    | none => (.load, text)

def scalarOp (access : Access) (ref : Ref) (ty : Ty) : OpKind :=
  match access with
  | load => .loadVar ref ty
  | store => .storeVar ref ty
  | addr => .varAddr ref .ptr

/-- Access to a struct variable, given the indices of its slots and the members in order. A load
pushes the first member first, so that the last is on top; a store takes the last member first. The
address is that of the first slot, as a reference to the struct. -/
def structOps (access : Access) (scope : Scope) (v : Aggregate) (members : List Member) :
    List OpKind :=
  let slots := v.members.zip members
  match access with
  | load => slots.map fun (i, m) => .loadVar ⟨scope, i⟩ m.ty
  | store => slots.reverse.map fun (i, m) => .storeVar ⟨scope, i⟩ m.ty
  | addr => v.members.head?.toList.map fun i => .varAddr ⟨scope, i⟩ (.struct v.struct)

end Access

/-- The member that a word accesses: a dot, a star if the address is wanted, and a name. -/
def memberWord? (text : String) : Option (MemberAccess × String) :=
  match stripSigil? '.' text with
  | none => none
  | some rest =>
    let found : MemberAccess × String :=
      match stripSigil? '*' rest with
      | some name => (.addr, name)
      | none => (.load, rest)
    if found.2 = "" then none else some found

namespace Symbols

def members (s : Symbols) (id : Nat) : List Member :=
  (s.structs[id]?).elim [] (·.members)

end Symbols

namespace Resolution

variable (r : Resolution)

def structConst? (text : String) : Option Meaning :=
  (r.symbols.findStructConst? text).map fun (_, c) =>
    ⟨(r.symbols.constValues c).flatMap Value.pushes, some c.loc⟩

def memberAccess? (text : String) : Option Meaning :=
  (memberWord? text).map fun (access, name) => { ops := [.member access name none] }

def binding? (text : String) : Option Meaning :=
  r.procedure?.bind fun (_, p) =>
    (p.bindingDepth? text).map fun depth => { ops := [.pushBinding depth] }

def primitive? (text : String) : Option Meaning :=
  (Intrinsic.ofName? text).map fun i => { ops := [.intrinsic i] }

/-- A memory region of the procedure, or else a global one. -/
def region? (text : String) : Option Meaning :=
  let here := r.procedure?.bind fun (id, p) =>
    (p.findMemory? text).map fun (i, region) =>
      (⟨[.pushMem ⟨.frame id, i⟩], some region.loc⟩ : Meaning)
  here.or <| (r.symbols.findMemory? text).map fun (i, region) =>
    ⟨[.pushMem ⟨.global, i⟩], some region.loc⟩

def call? (text : String) : Option Meaning :=
  (r.symbols.findProc? text).map fun (id, p) => ⟨[.call id], some p.loc⟩

def const? (text : String) : Option Meaning :=
  (r.symbols.findConst? text).map fun (_, c) => ⟨c.value.pushes, some c.loc⟩

def localVar? (access : Access) (name : String) : Option Meaning :=
  r.procedure?.bind fun (id, p) =>
    ((p.findLocalStruct? name).map fun (_, v) =>
      (⟨access.structOps (.frame id) v (r.symbols.members v.struct), some v.loc⟩ : Meaning)).or <|
    (p.findLocal? name).map fun (i, v) =>
      ⟨[access.scalarOp ⟨.frame id, i⟩ v.value.ty], some v.loc⟩

def globalVar? (access : Access) (name : String) : Option Meaning :=
  ((r.symbols.findGlobalStruct? name).map fun (_, v) =>
    (⟨access.structOps .global v (r.symbols.members v.struct), some v.loc⟩ : Meaning)).or <|
  (r.symbols.findGlobal? name).map fun (i, v) =>
    ⟨[access.scalarOp ⟨.global, i⟩ v.value.ty], some v.loc⟩

def namedVar? (text : String) : Option Meaning :=
  let (access, name) := Access.ofWord text
  (r.localVar? access name).or (r.globalVar? access name)

def lookup (text : String) (loc : Location) : Except Fault (Option Meaning) :=
  match (r.structConst? text).or ((memberAccess? text).or ((r.binding? text).or (primitive? text)))
  with
  | some m => .ok (some m)
  | none =>
    match stripSigil? '#' text with
    | some target =>
      match r.symbols.castTarget? target with
      | some ty => .ok (some { ops := [.cast ty] })
      | none => .error ((Cause.unknownCast target).fault loc)
    | none =>
      .ok ((r.region? text).or ((r.call? text).or ((r.const? text).or (r.namedVar? text))))

end Resolution

end StackEffect
