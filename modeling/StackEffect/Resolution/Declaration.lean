import StackEffect.Resolution.Shape

/-! # Declarations

Reading a declaration adds an entry to the tables and uses up the tokens behind the declared word.
Every function here gives the new state and the number of those tokens. Variables and memory belong
to the procedure whose body is being read, if there is one; constants are always global, and structs
and procedures stand at top level only.
-/

namespace StackEffect

namespace Symbols

def checkType (s : Symbols) (v : Value) (expected : Ty) (what : String) (loc : Location) :
    Except Fault Value :=
  if v.ty = expected then .ok v
  else
    .error ((Cause.initializerType what (s.typeName expected) (s.typeName v.ty)).fault loc)

/-- The values of the members: those of the initializer, each of its member's type, or the defaults
where an empty initializer is allowed. -/
def memberValues (s : Symbols) (d : StructDef) (folded : Folded) (mayElide : Bool) (what : String)
    (loc : Location) : Except Fault (List Value) := do
  match ← folded.expect d.members.length mayElide what loc with
  | none => return d.members.map (·.initial)
  | some values =>
    (values.zip d.members).mapM fun (v, m) =>
      s.checkType v m.ty s!"member `{m.name}` of {what}" loc

end Symbols

/-- The scalars that stand for the members of a struct variable or constant. -/
def StructDef.scalars (d : StructDef) (owner : String) (values : List Value) (loc : Location) :
    List Scalar :=
  (values.zip d.members).map fun (v, m) => ⟨s!"{owner}.{m.name}", ⟨v.bits, m.ty⟩, loc⟩

def signatureTypes (sym : Symbols) : List Token → List Ty
  | [] => []
  | t :: ts =>
    match t.type? sym with
    | some ty => ty :: signatureTypes sym ts
    | none => []

/-- Whether a literal may be the default of a member: it has the type of the member, or it is an
address and the member is a struct. -/
def Value.isDefaultOf (v : Value) (ty : Ty) : Bool :=
  v.ty = ty ∨ (v.ty = .ptr ∧ ty.isStruct)

/-- Reads the members of a struct up to `end`, behind the members and the tokens already read. A
member is a name, a type, and perhaps a literal for its default. -/
def structMembers (sym : Symbols) (name : String) (loc eof : Location) :
    List Member → Nat → List Token → Except Fault (List Member × Nat)
  | _, _, [] =>
    .error (((Cause.unterminatedStruct name).fault eof).note (.declaredHere name) loc)
  | members, count, t :: ts =>
    match t.kind with
    | .keyword .endKw => .ok (members, count + 1)
    | .word m =>
      if (Named.first? m members).isSome then
        .error ((Cause.duplicateMember m name).fault t.loc)
      else
        match ts with
        | [] => .error ((Cause.missingMemberType name).fault eof)
        | u :: us =>
          match u.type? sym with
          | none => .error ((Cause.notMemberType name u.kind.describe).fault u.loc)
          | some ty =>
            let plain := members ++ [⟨m, ty, .zero ty⟩]
            match us with
            | [] => structMembers sym name loc eof plain (count + 2) []
            | d :: ds =>
              match d.kind.literal? with
              | none => structMembers sym name loc eof plain (count + 2) (d :: ds)
              | some v =>
                let given := members ++ [⟨m, ty, ⟨v.bits, ty⟩⟩]
                if v.isDefaultOf ty then structMembers sym name loc eof given (count + 3) ds
                else .error ((Cause.memberDefault m v.ty.text (sym.typeName ty)).fault d.loc)
    | _ => .error ((Cause.notMemberName name t.kind.describe).fault t.loc)

namespace Resolution

variable (r : Resolution)

def addVar (v : Scalar) : Nat × Resolution :=
  match r.procedure? with
  | some (id, p) =>
    let (index, p) := p.addLocal v
    (index, r.setProcedure id p)
  | none =>
    let (index, symbols) := r.symbols.addGlobal v
    (index, { r with symbols := symbols })

def addVars (r : Resolution) : List Scalar → List Nat × Resolution
  | [] => ([], r)
  | v :: vs =>
    let (index, r) := r.addVar v
    let (indices, r) := addVars r vs
    (index :: indices, r)

def addStructVar (v : Aggregate) : Resolution :=
  match r.procedure? with
  | some (id, p) => r.setProcedure id (p.addLocalStruct v).2
  | none => { r with symbols := (r.symbols.addGlobalStruct v).2 }

def addConsts (r : Resolution) : List Scalar → List Nat × Resolution
  | [] => ([], r)
  | c :: cs =>
    let (index, symbols) := r.symbols.addConst c
    let (indices, r) := addConsts { r with symbols := symbols } cs
    (index :: indices, r)

def addMemory? (name : String) (size : Nat) (loc : Location) : Option Resolution :=
  match r.procedure? with
  | some (id, p) => (p.addMemory? name size loc).map fun (_, p) => r.setProcedure id p
  | none =>
    (r.symbols.addMemory? name size loc).map fun (_, symbols) => { r with symbols := symbols }

def memorySpace : String :=
  if r.procedure?.isSome then "procedure frame" else "global memory"

variable (eof : Location) (name : String) (loc : Location) (rest : List Token)

def fold (skip : Nat) : Except Fault Folded :=
  Folded.ofTokens r.symbols eof (rest.drop skip)

/-- The first value of a variable: what its initializer leaves, or zero if that is empty. -/
def initialValue (folded : Folded) (ty : Ty) (what : String) : Except Fault Value :=
  if folded.isElided then .ok (.zero ty)
  else do r.symbols.checkType (← folded.single what loc) ty what loc

def declareVar (ty : Ty) : Except Fault (Resolution × Nat) := do
  let folded ← r.fold eof rest 1
  let value ← r.initialValue loc folded ty s!"variable `{name}`"
  return ((r.addVar ⟨name, ⟨value.bits, ty⟩, loc⟩).2, 1 + folded.consumed)

def declareConst (ty : Ty) : Except Fault (Resolution × Nat) := do
  let folded ← r.fold eof rest 3
  let what := s!"constant `{name}`"
  let value ← r.symbols.checkType (← folded.single what loc) ty what loc
  return ((r.addConsts [⟨name, ⟨value.bits, ty⟩, loc⟩]).2, 3 + folded.consumed)

/-- Declares a constant whose value has been folded already. -/
def declareUntyped (value : Value) (consumed : Nat) : Resolution × Nat :=
  ((r.addConsts [⟨name, value, loc⟩]).2, 2 + consumed)

def declareStructVar (id : Nat) (d : StructDef) : Except Fault (Resolution × Nat) := do
  let folded ← r.fold eof rest 2
  let values ← r.symbols.memberValues d folded true s!"variable `{name}`" loc
  let (members, r) := r.addVars (d.scalars name values loc)
  return (r.addStructVar ⟨name, id, members, loc⟩, 2 + folded.consumed)

def declareStructConst (id : Nat) (d : StructDef) : Except Fault (Resolution × Nat) := do
  let folded ← r.fold eof rest 4
  let values ← r.symbols.memberValues d folded false s!"constant `{name}`" loc
  let (members, r) := r.addConsts (d.scalars name values loc)
  let symbols := (r.symbols.addStructConst ⟨name, id, members, loc⟩).2
  return ({ r with symbols := symbols }, 4 + folded.consumed)

def declareMemory : Except Fault (Resolution × Nat) := do
  let folded ← r.fold eof rest 1
  let what := s!"memory region `{name}`"
  let value ← r.symbols.checkType (← folded.single what loc) .int what loc
  let size := value.bits.toInt
  if 0 < size ∧ size ≤ byteLimit then
    match r.addMemory? name size.toNat loc with
    | some r => .ok (r, 1 + folded.consumed)
    | none => .error ((Cause.outOfMemory what size.toNat r.memorySpace).fault loc)
  else .error ((Cause.regionSize what size).fault loc)

def declareStruct : Except Fault (Resolution × Nat) :=
  match r.procedure? with
  | some (_, p) =>
    .error (((Cause.nestedStruct name).fault loc).note (.insideProcedure p.name) p.loc)
  | none => do
    let (members, count) ← structMembers r.symbols name loc eof [] 1 (rest.drop 1)
    if members.isEmpty then .error ((Cause.emptyStruct name).fault loc)
    else .ok ({ r with symbols := (r.symbols.addStruct ⟨name, members, loc⟩).2 }, count)

/-- The types that a procedure leaves, behind an arrow, and the number of tokens that say so. -/
def procOuts (sym : Symbols) (tokens : List Token) : List Ty × Nat :=
  match tokens with
  | ⟨.keyword .arrow, _⟩ :: tail =>
    let outs := signatureTypes sym tail
    (outs, outs.length + 1)
  | _ => ([], 0)

def declareProc : Except Fault (Resolution × Nat) :=
  match r.procedure? with
  | some (_, p) =>
    .error (((Cause.nestedProcedure name p.name).fault loc).note (.declaredHere p.name) p.loc)
  | none =>
    let ins := signatureTypes r.symbols (rest.drop 2)
    let (outs, count) := procOuts r.symbols (rest.drop (2 + ins.length))
    let (id, symbols) := r.symbols.addProc { name, ins, outs, loc }
    let code := r.code.openBlock (.procBlock id) (.procBegin id) loc
    .ok ({ r with symbols := symbols, code := code, current := some id }, 2 + ins.length + count)

def declareShape (shape : Shape) : Except Fault (Resolution × Nat) :=
  match shape with
  | .struct => r.declareStruct eof name loc rest
  | .var ty => r.declareVar eof name loc rest ty
  | .const ty => r.declareConst eof name loc rest ty
  | .structVar id d => r.declareStructVar eof name loc rest id d
  | .structConst id d => r.declareStructConst eof name loc rest id d
  | .memory => r.declareMemory eof name loc rest
  | .untyped value consumed => .ok (r.declareUntyped name loc value consumed)
  | .proc => r.declareProc name loc rest

def declare : Except Fault (Resolution × Nat) :=
  match r.symbols.findStruct? name with
  | some (_, d) => .error (((Cause.structAsWord name).fault loc).note (.declaredHere name) d.loc)
  | none => do
    r.declareShape eof name loc rest (← Shape.classify r.symbols name loc eof rest)

end Resolution

end StackEffect
