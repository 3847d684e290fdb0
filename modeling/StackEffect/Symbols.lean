import StackEffect.InPlace
import StackEffect.Memory
import StackEffect.Op
import StackEffect.Symbols.Named

/-! # Symbol tables

Everything a program declares, in tables that only grow: an index once given keeps its meaning. Of
several global entries with one name the last counts; in the tables of a procedure it is the first.
-/

namespace StackEffect

structure Member where
  name : String
  ty : Ty
  initial : Value
deriving DecidableEq, Repr

/-- A struct type. Its members lie one cell apart, in this order. -/
structure StructDef where
  name : String
  members : List Member
  loc : Location
deriving DecidableEq, Repr

structure Scalar where
  name : String
  value : Value
  loc : Location
deriving DecidableEq, Repr

/-- A constant or variable of a struct type: the indices of the scalars that stand for its members,
in the order of the members. -/
structure Aggregate where
  name : String
  struct : Nat
  members : List Nat
  loc : Location
deriving DecidableEq, Repr

/-- A procedure: the types it takes and leaves, bottom first, and all that is declared in its body.
The names bound by `let` are listed with the oldest first. -/
structure Procedure where
  name : String
  ins : List Ty
  outs : List Ty
  loc : Location
  locals : List Scalar := []
  localStructs : List Aggregate := []
  memory : Memory := {}
  bindings : List String := []
deriving DecidableEq, Repr

instance : Named Member := ⟨Member.name⟩
instance : Named StructDef := ⟨StructDef.name⟩
instance : Named Scalar := ⟨Scalar.name⟩
instance : Named Aggregate := ⟨Aggregate.name⟩
instance : Named Region := ⟨Region.name⟩
instance : Named Procedure := ⟨Procedure.name⟩

namespace StructDef

def member? (d : StructDef) (name : String) : Option (Nat × Member) :=
  Named.first? name d.members

def offset (index : Nat) : Nat :=
  index * cellSize

end StructDef

namespace Procedure

def findLocal? (p : Procedure) (name : String) : Option (Nat × Scalar) :=
  Named.first? name p.locals

def findLocalStruct? (p : Procedure) (name : String) : Option (Nat × Aggregate) :=
  Named.first? name p.localStructs

def findMemory? (p : Procedure) (name : String) : Option (Nat × Region) :=
  Named.first? name p.memory.regions

/-- How many bindings were made after the latest one of a name. -/
def bindingDepth? (p : Procedure) (name : String) : Option Nat :=
  p.bindings.reverse.idxOf? name

def addLocal (p : Procedure) (v : Scalar) : Nat × Procedure :=
  (p.locals.length, { p with locals := p.locals ++ [v] })

def addLocalStruct (p : Procedure) (v : Aggregate) : Nat × Procedure :=
  (p.localStructs.length, { p with localStructs := p.localStructs ++ [v] })

/-- Adds a region to the frame. Refused when the rounded region or the new total is past the limit.
-/
def addMemory (name : String) (bytes : Nat) (loc : Location) : InPlace Procedure Nat := do
  let some size := roundToCell? bytes | failure
  let m := (← get).memory
  guard (m.size + size ≤ byteLimit)
  modify fun p => { p with memory.regions := p.memory.regions ++ [⟨name, m.size, size, loc⟩] }
  modify fun p => { p with memory.size := m.size + size }
  return m.regions.length

theorem run_addMemory (p : Procedure) (name : String) (bytes : Nat) (loc : Location) :
    (addMemory name bytes loc).run p =
      match p.memory.reserve? name bytes loc with
      | some m => (some p.memory.regions.length, { p with memory := m })
      | none => (none, p) := by
  unfold addMemory Memory.reserve?
  cases roundToCell? bytes with
  | none => rfl
  | some size =>
    rw [InPlace.run_get_bind, InPlace.run_guard_bind]
    by_cases hroom : p.memory.size + size ≤ byteLimit
    · simp only [if_pos hroom]
      rfl
    · simp only [if_neg hroom]

def addMemory? (p : Procedure) (name : String) (bytes : Nat) (loc : Location) :
    Option (Nat × Procedure) :=
  match (addMemory name bytes loc).run p with
  | (some index, p) => some (index, p)
  | (none, _) => none

theorem addMemory?_eq (p : Procedure) (name : String) (bytes : Nat) (loc : Location) :
    p.addMemory? name bytes loc = (p.memory.reserve? name bytes loc).map fun m =>
      (p.memory.regions.length, { p with memory := m }) := by
  rw [addMemory?, run_addMemory]
  cases p.memory.reserve? name bytes loc <;> rfl

end Procedure

structure Symbols where
  structs : List StructDef := []
  consts : List Scalar := []
  structConsts : List Aggregate := []
  globals : List Scalar := []
  globalStructs : List Aggregate := []
  memory : Memory := {}
  procs : List Procedure := []
deriving DecidableEq, Repr

namespace Symbols

def addStruct (s : Symbols) (d : StructDef) : Nat × Symbols :=
  (s.structs.length, { s with structs := s.structs ++ [d] })

def addConst (s : Symbols) (c : Scalar) : Nat × Symbols :=
  (s.consts.length, { s with consts := s.consts ++ [c] })

def addStructConst (s : Symbols) (c : Aggregate) : Nat × Symbols :=
  (s.structConsts.length, { s with structConsts := s.structConsts ++ [c] })

def addGlobal (s : Symbols) (v : Scalar) : Nat × Symbols :=
  (s.globals.length, { s with globals := s.globals ++ [v] })

def addGlobalStruct (s : Symbols) (v : Aggregate) : Nat × Symbols :=
  (s.globalStructs.length, { s with globalStructs := s.globalStructs ++ [v] })

def addMemory? (s : Symbols) (name : String) (size : Nat) (loc : Location) :
    Option (Nat × Symbols) :=
  (s.memory.reserve? name size loc).map fun m => (s.memory.regions.length, { s with memory := m })

def addProc (s : Symbols) (p : Procedure) : Nat × Symbols :=
  (s.procs.length, { s with procs := s.procs ++ [p] })

def modifyProc (s : Symbols) (id : Nat) (f : Procedure → Procedure) : Symbols :=
  { s with procs := s.procs.modify id f }

def findStruct? (s : Symbols) (name : String) : Option (Nat × StructDef) :=
  Named.last? name s.structs

def findConst? (s : Symbols) (name : String) : Option (Nat × Scalar) :=
  Named.last? name s.consts

def findStructConst? (s : Symbols) (name : String) : Option (Nat × Aggregate) :=
  Named.last? name s.structConsts

def findGlobal? (s : Symbols) (name : String) : Option (Nat × Scalar) :=
  Named.last? name s.globals

def findGlobalStruct? (s : Symbols) (name : String) : Option (Nat × Aggregate) :=
  Named.last? name s.globalStructs

def findMemory? (s : Symbols) (name : String) : Option (Nat × Region) :=
  Named.last? name s.memory.regions

def findProc? (s : Symbols) (name : String) : Option (Nat × Procedure) :=
  Named.last? name s.procs

def var? (s : Symbols) (ref : Ref) : Option Scalar :=
  match ref.scope with
  | .global => s.globals[ref.index]?
  | .frame p => s.procs[p]?.bind fun proc => proc.locals[ref.index]?

def constValues (s : Symbols) (c : Aggregate) : List Value :=
  c.members.filterMap fun i => s.consts[i]?.map (·.value)

/-- The spelling of a type; a struct goes by its name. -/
def typeName (s : Symbols) (ty : Ty) : String :=
  match ty with
  | .struct id => (s.structs[id]?).elim ty.text (·.name)
  | _ => ty.text

def shape (s : Symbols) (types : List Ty) : String :=
  "[" ++ ", ".intercalate (types.map s.typeName) ++ "]"

end Symbols

/-- A text without its first character, if that is the given one. -/
def stripSigil? (sigil : Char) (text : String) : Option String :=
  match text.toList with
  | c :: cs => if c = sigil then some (String.ofList cs) else none
  | [] => none

namespace Symbols

def namedType? (s : Symbols) (name : String) : Option Ty :=
  if name = "int" then some .int
  else if name = "bool" then some .bool
  else if name = "ptr" then some .ptr
  else (s.findStruct? name).map (.struct ·.1)

/-- The type that a cast aims at. A star asks for a pointer: structs are always handled by
reference, and a pointer to anything else is just an address. -/
def castTarget? (s : Symbols) (target : String) : Option Ty :=
  match stripSigil? '*' target with
  | none => s.namedType? target
  | some name => (s.namedType? name).map fun ty => if ty.isStruct then ty else .ptr

end Symbols

end StackEffect
