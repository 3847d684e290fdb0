import Std.Data.HashMap
import StackEffect.Symbols

/-! # Names of the global tables

Beside each global table stands an index from the names of its entries to their positions, so that
an entry is found without going through the table. An entry that is added takes its name over from
the entries before it.
-/

namespace StackEffect

inductive TableKind
  | structs | consts | structConsts | globals | globalStructs | memory | procs
deriving DecidableEq, Repr

/-- What may be added to the global tables. Of a region only the size is asked for. -/
inductive NewEntry
  | struct (d : StructDef)
  | const (c : Scalar)
  | structConst (c : Aggregate)
  | global (v : Scalar)
  | globalStruct (v : Aggregate)
  | memory (name : String) (size : Nat) (loc : Location)
  | proc (p : Procedure)
deriving DecidableEq, Repr

namespace NewEntry

def table : NewEntry → TableKind
  | struct _ => .structs
  | const _ => .consts
  | structConst _ => .structConsts
  | global _ => .globals
  | globalStruct _ => .globalStructs
  | memory .. => .memory
  | proc _ => .procs

def name : NewEntry → String
  | struct d => d.name
  | const c => c.name
  | structConst c => c.name
  | global v => v.name
  | globalStruct v => v.name
  | memory name _ _ => name
  | proc p => p.name

end NewEntry

namespace Symbols

def find? (s : Symbols) (table : TableKind) (name : String) : Option Nat :=
  match table with
  | .structs => (s.findStruct? name).map (·.1)
  | .consts => (s.findConst? name).map (·.1)
  | .structConsts => (s.findStructConst? name).map (·.1)
  | .globals => (s.findGlobal? name).map (·.1)
  | .globalStructs => (s.findGlobalStruct? name).map (·.1)
  | .memory => (s.findMemory? name).map (·.1)
  | .procs => (s.findProc? name).map (·.1)

end Symbols

structure NameIndexes where
  structs : Std.HashMap String Nat := ∅
  consts : Std.HashMap String Nat := ∅
  structConsts : Std.HashMap String Nat := ∅
  globals : Std.HashMap String Nat := ∅
  globalStructs : Std.HashMap String Nat := ∅
  memory : Std.HashMap String Nat := ∅
  procs : Std.HashMap String Nat := ∅

namespace NameIndexes

def of (n : NameIndexes) : TableKind → Std.HashMap String Nat
  | .structs => n.structs
  | .consts => n.consts
  | .structConsts => n.structConsts
  | .globals => n.globals
  | .globalStructs => n.globalStructs
  | .memory => n.memory
  | .procs => n.procs

def insert (n : NameIndexes) (table : TableKind) (name : String) (position : Nat) : NameIndexes :=
  match table with
  | .structs => { n with structs := n.structs.insert name position }
  | .consts => { n with consts := n.consts.insert name position }
  | .structConsts => { n with structConsts := n.structConsts.insert name position }
  | .globals => { n with globals := n.globals.insert name position }
  | .globalStructs => { n with globalStructs := n.globalStructs.insert name position }
  | .memory => { n with memory := n.memory.insert name position }
  | .procs => { n with procs := n.procs.insert name position }

end NameIndexes

structure IndexedSymbols where
  symbols : Symbols := {}
  names : NameIndexes := {}

namespace IndexedSymbols

def append (table : TableKind) (name : String) (push : Symbols → Nat × Symbols) :
    InPlace IndexedSymbols Nat := do
  let (position, symbols) := push (← get).symbols
  modify fun s => { s with names := s.names.insert table name position }
  modify fun s => { s with symbols := symbols }
  return position

/-- Adds a region of memory. Refused when the rounded region or the new total is past the limit. -/
def addMemory (name : String) (bytes : Nat) (loc : Location) : InPlace IndexedSymbols Nat := do
  let some size := roundToCell? bytes | failure
  let m := (← get).symbols.memory
  guard (m.size + size ≤ byteLimit)
  let position := m.regions.length
  modify fun s => { s with names := s.names.insert .memory name position }
  modify fun s => { s with
    symbols.memory.regions := s.symbols.memory.regions ++ [⟨name, m.size, size, loc⟩] }
  modify fun s => { s with symbols.memory.size := m.size + size }
  return position

theorem run_append (s : IndexedSymbols) (table : TableKind) (name : String)
    (push : Symbols → Nat × Symbols) :
    (append table name push).run s =
      (some (push s.symbols).1,
        ⟨(push s.symbols).2, s.names.insert table name (push s.symbols).1⟩) :=
  rfl

theorem run_addMemory (s : IndexedSymbols) (name : String) (bytes : Nat) (loc : Location) :
    (addMemory name bytes loc).run s =
      match s.symbols.memory.reserve? name bytes loc with
      | some m => (some s.symbols.memory.regions.length,
          ⟨{ s.symbols with memory := m },
            s.names.insert .memory name s.symbols.memory.regions.length⟩)
      | none => (none, s) := by
  unfold addMemory Memory.reserve?
  cases roundToCell? bytes with
  | none => rfl
  | some size =>
    rw [InPlace.run_get_bind, InPlace.run_guard_bind]
    by_cases hroom : s.symbols.memory.size + size ≤ byteLimit
    · simp only [if_pos hroom]
      rfl
    · simp only [if_neg hroom]

def addEntry : NewEntry → InPlace IndexedSymbols Nat
  | .struct d => append .structs d.name (·.addStruct d)
  | .const c => append .consts c.name (·.addConst c)
  | .structConst c => append .structConsts c.name (·.addStructConst c)
  | .global v => append .globals v.name (·.addGlobal v)
  | .globalStruct v => append .globalStructs v.name (·.addGlobalStruct v)
  | .memory name size loc => addMemory name size loc
  | .proc p => append .procs p.name (·.addProc p)

def add (s : IndexedSymbols) (e : NewEntry) : Option Nat × IndexedSymbols :=
  (addEntry e).run s

def addAll (s : IndexedSymbols) (entries : List NewEntry) : IndexedSymbols :=
  entries.foldl (fun s e => (s.add e).2) s

def find? (s : IndexedSymbols) (table : TableKind) (name : String) : Option Nat :=
  (s.names.of table)[name]?

end IndexedSymbols

end StackEffect
