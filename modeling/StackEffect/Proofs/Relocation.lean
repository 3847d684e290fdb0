import StackEffect.Checked
import StackEffect.Proofs.Except

/-! # Relocation

A map of places moves whatever carries a place: tokens, the entries of the tables, operations, and
rejections. What is looked up in tables that have been moved is what would be found in the old ones,
moved; and constant expressions have the same values.
-/

namespace StackEffect

/-! ## Data at other places -/

def Token.relocate (f : Location → Location) (t : Token) : Token :=
  { t with loc := f t.loc }

def TokenStream.relocate (f : Location → Location) (s : TokenStream) : TokenStream :=
  ⟨s.tokens.map (Token.relocate f), f s.eof⟩

def Note.relocate (f : Location → Location) (n : Note) : Note :=
  { n with loc := f n.loc }

def Fault.relocate (f : Location → Location) (e : Fault) : Fault :=
  { e with loc := f e.loc, notes := e.notes.map (Note.relocate f) }

def StructDef.relocate (f : Location → Location) (d : StructDef) : StructDef :=
  { d with loc := f d.loc }

def Scalar.relocate (f : Location → Location) (v : Scalar) : Scalar :=
  { v with loc := f v.loc }

def Aggregate.relocate (f : Location → Location) (v : Aggregate) : Aggregate :=
  { v with loc := f v.loc }

def Region.relocate (f : Location → Location) (m : Region) : Region :=
  { m with loc := f m.loc }

def Memory.relocate (f : Location → Location) (m : Memory) : Memory :=
  { m with regions := m.regions.map (Region.relocate f) }

def Procedure.relocate (f : Location → Location) (p : Procedure) : Procedure :=
  { p with
    loc := f p.loc
    locals := p.locals.map (Scalar.relocate f)
    localStructs := p.localStructs.map (Aggregate.relocate f)
    memory := p.memory.relocate f }

def Symbols.relocate (f : Location → Location) (s : Symbols) : Symbols where
  structs := s.structs.map (StructDef.relocate f)
  consts := s.consts.map (Scalar.relocate f)
  structConsts := s.structConsts.map (Aggregate.relocate f)
  globals := s.globals.map (Scalar.relocate f)
  globalStructs := s.globalStructs.map (Aggregate.relocate f)
  memory := s.memory.relocate f
  procs := s.procs.map (Procedure.relocate f)

def Op.relocate (f : Location → Location) (op : Op) : Op :=
  { op with loc := f op.loc }

def Program.relocate (f : Location → Location) (p : Program) : Program :=
  { p with symbols := p.symbols.relocate f, ops := p.ops.map (Op.relocate f) }

def Checked.relocate (f : Location → Location) (c : Checked) : Checked :=
  { c with program := c.program.relocate f }

/-- A result that is moved by `g`, or the rejection with all its places moved. -/
def relocateBy {α β : Type} (f : Location → Location) (g : α → β) :
    Except Fault α → Except Fault β
  | .ok a => .ok (g a)
  | .error e => .error (e.relocate f)

section Results

variable {α α' β β' : Type} {f : Location → Location}

@[simp] theorem relocateBy_ok (g : α → β) (a : α) : relocateBy f g (.ok a) = .ok (g a) := rfl

@[simp] theorem relocateBy_error (g : α → β) (e : Fault) :
    relocateBy f g (.error e) = .error (e.relocate f) := rfl

theorem relocateBy_bind {g : α → α'} {h : β → β'} {k : α → Except Fault β}
    {k' : α' → Except Fault β'} (hk : ∀ a, k' (g a) = relocateBy f h (k a)) (x : Except Fault α) :
    (relocateBy f g x >>= k') = relocateBy f h (x >>= k) := by
  cases x with
  | ok a => exact hk a
  | error e => rfl

theorem relocateBy_map {g : α → α'} {h : β → β'} {k : α → β} {k' : α' → β'}
    (hk : ∀ a, k' (g a) = h (k a)) (x : Except Fault α) :
    (relocateBy f g x).map k' = relocateBy f h (x.map k) := by
  cases x with
  | ok a => simp [Except.map, hk]
  | error e => rfl

end Results

section Faults

variable (f : Location → Location)

@[simp] theorem Cause.relocate_fault (cause : Cause) (loc : Location) :
    (cause.fault loc).relocate f = cause.fault (f loc) := rfl

@[simp] theorem Fault.relocate_note (e : Fault) (remark : Remark) (loc : Location) :
    (e.note remark loc).relocate f = (e.relocate f).note remark (f loc) := by
  simp [Fault.relocate, Fault.note, Note.relocate]

end Faults

section Entries

variable (f : Location → Location)

@[simp] theorem StructDef.name_relocate (d : StructDef) : (d.relocate f).name = d.name := rfl

@[simp] theorem StructDef.members_relocate (d : StructDef) :
    (d.relocate f).members = d.members := rfl

@[simp] theorem StructDef.loc_relocate (d : StructDef) : (d.relocate f).loc = f d.loc := rfl

@[simp] theorem Scalar.name_relocate (v : Scalar) : (v.relocate f).name = v.name := rfl

@[simp] theorem Scalar.value_relocate (v : Scalar) : (v.relocate f).value = v.value := rfl

@[simp] theorem Scalar.loc_relocate (v : Scalar) : (v.relocate f).loc = f v.loc := rfl

@[simp] theorem Aggregate.struct_relocate (v : Aggregate) : (v.relocate f).struct = v.struct := rfl

@[simp] theorem Aggregate.members_relocate (v : Aggregate) :
    (v.relocate f).members = v.members := rfl

@[simp] theorem Aggregate.loc_relocate (v : Aggregate) : (v.relocate f).loc = f v.loc := rfl

@[simp] theorem Region.loc_relocate (m : Region) : (m.relocate f).loc = f m.loc := rfl

@[simp] theorem Procedure.name_relocate (p : Procedure) : (p.relocate f).name = p.name := rfl

@[simp] theorem Procedure.ins_relocate (p : Procedure) : (p.relocate f).ins = p.ins := rfl

@[simp] theorem Procedure.outs_relocate (p : Procedure) : (p.relocate f).outs = p.outs := rfl

@[simp] theorem Procedure.loc_relocate (p : Procedure) : (p.relocate f).loc = f p.loc := rfl

@[simp] theorem Procedure.bindings_relocate (p : Procedure) :
    (p.relocate f).bindings = p.bindings := rfl

@[simp] theorem Symbols.getElem?_structs_relocate (s : Symbols) (id : Nat) :
    (s.relocate f).structs[id]? = (s.structs[id]?).map (StructDef.relocate f) :=
  List.getElem?_map

@[simp] theorem Symbols.getElem?_procs_relocate (s : Symbols) (id : Nat) :
    (s.relocate f).procs[id]? = (s.procs[id]?).map (Procedure.relocate f) :=
  List.getElem?_map

end Entries

/-! ## Lookups -/

namespace Named

variable {α β : Type} [Named α] [Named β] (g : α → β)

theorem first?_map (hg : ∀ a, name (g a) = name a) (wanted : String) (l : List α) :
    first? wanted (l.map g) = (first? wanted l).map (Prod.map id g) := by
  induction l with
  | nil => rfl
  | cons a l ih =>
    simp only [List.map_cons, first?, hg, ih]
    split
    · rfl
    · cases first? wanted l <;> rfl

theorem last?_map (hg : ∀ a, name (g a) = name a) (wanted : String) (l : List α) :
    last? wanted (l.map g) = (last? wanted l).map (Prod.map id g) := by
  induction l with
  | nil => rfl
  | cons a l ih =>
    simp only [List.map_cons, last?, hg, ih]
    cases last? wanted l with
    | none =>
      simp only [Option.map_none]
      split <;> rfl
    | some found => rfl

end Named

namespace Procedure

variable (f : Location → Location) (p : Procedure) (name : String)

@[simp] theorem findLocal?_relocate :
    (p.relocate f).findLocal? name = (p.findLocal? name).map (Prod.map id (Scalar.relocate f)) :=
  Named.first?_map (Scalar.relocate f) (fun _ => rfl) name p.locals

@[simp] theorem findLocalStruct?_relocate :
    (p.relocate f).findLocalStruct? name =
      (p.findLocalStruct? name).map (Prod.map id (Aggregate.relocate f)) :=
  Named.first?_map (Aggregate.relocate f) (fun _ => rfl) name p.localStructs

@[simp] theorem findMemory?_relocate :
    (p.relocate f).findMemory? name = (p.findMemory? name).map (Prod.map id (Region.relocate f)) :=
  Named.first?_map (Region.relocate f) (fun _ => rfl) name p.memory.regions

end Procedure

namespace Symbols

variable (f : Location → Location) (s : Symbols) (name : String)

@[simp] theorem findStruct?_relocate :
    (s.relocate f).findStruct? name =
      (s.findStruct? name).map (Prod.map id (StructDef.relocate f)) :=
  Named.last?_map (StructDef.relocate f) (fun _ => rfl) name s.structs

@[simp] theorem findConst?_relocate :
    (s.relocate f).findConst? name = (s.findConst? name).map (Prod.map id (Scalar.relocate f)) :=
  Named.last?_map (Scalar.relocate f) (fun _ => rfl) name s.consts

@[simp] theorem findStructConst?_relocate :
    (s.relocate f).findStructConst? name =
      (s.findStructConst? name).map (Prod.map id (Aggregate.relocate f)) :=
  Named.last?_map (Aggregate.relocate f) (fun _ => rfl) name s.structConsts

@[simp] theorem findGlobal?_relocate :
    (s.relocate f).findGlobal? name = (s.findGlobal? name).map (Prod.map id (Scalar.relocate f)) :=
  Named.last?_map (Scalar.relocate f) (fun _ => rfl) name s.globals

@[simp] theorem findGlobalStruct?_relocate :
    (s.relocate f).findGlobalStruct? name =
      (s.findGlobalStruct? name).map (Prod.map id (Aggregate.relocate f)) :=
  Named.last?_map (Aggregate.relocate f) (fun _ => rfl) name s.globalStructs

@[simp] theorem findMemory?_relocate :
    (s.relocate f).findMemory? name = (s.findMemory? name).map (Prod.map id (Region.relocate f)) :=
  Named.last?_map (Region.relocate f) (fun _ => rfl) name s.memory.regions

@[simp] theorem findProc?_relocate :
    (s.relocate f).findProc? name = (s.findProc? name).map (Prod.map id (Procedure.relocate f)) :=
  Named.last?_map (Procedure.relocate f) (fun _ => rfl) name s.procs

@[simp] theorem var?_relocate (ref : Ref) :
    (s.relocate f).var? ref = (s.var? ref).map (Scalar.relocate f) := by
  obtain ⟨scope, i⟩ := ref
  cases scope with
  | global => simp [var?, relocate]
  | frame p => cases hp : s.procs[p]? <;> simp [var?, hp, Procedure.relocate]

@[simp] theorem constValues_relocate (c : Aggregate) :
    (s.relocate f).constValues (c.relocate f) = s.constValues c := by
  simp [constValues, relocate, Function.comp_def]

@[simp] theorem typeName_relocate (ty : Ty) : (s.relocate f).typeName ty = s.typeName ty := by
  cases ty with
  | struct id => cases hd : s.structs[id]? <;> simp [typeName, hd]
  | int | bool | ptr | any => rfl

@[simp] theorem shape_relocate (types : List Ty) : (s.relocate f).shape types = s.shape types := by
  have hnames : (s.relocate f).typeName = s.typeName := funext (s.typeName_relocate f)
  rw [shape, hnames, shape]

@[simp] theorem namedType?_relocate : (s.relocate f).namedType? name = s.namedType? name := by
  simp [namedType?, Function.comp_def]

@[simp] theorem castTarget?_relocate : (s.relocate f).castTarget? name = s.castTarget? name := by
  simp [castTarget?]

end Symbols

/-! ## Constant expressions -/

namespace Fold

variable (f : Location → Location) (sym : Symbols) (loc : Location)

theorem binary_relocate {op op' : Value → Value → Except Fault Value}
    (hop : ∀ a b, op' a b = relocateBy f id (op a b)) (word : String) (st : List Value) :
    binary (sym.relocate f) word (f loc) op' st = relocateBy f id (binary sym word loc op st) := by
  unfold binary
  split
  · simp only [hop, Symbols.typeName_relocate]
    split
    · exact relocateBy_map (by simp) _
    · rfl
  · rfl

theorem intrinsic?_relocate (i : Intrinsic) :
    intrinsic? (sym.relocate f) (f loc) i =
      (intrinsic? sym loc i).map fun effect st => relocateBy f id (effect st) := by
  cases i with
  | dup | drop | swap | dupUnder | rot =>
    refine congrArg some (funext fun st => ?_)
    simp only
    split <;> rfl
  | add | sub | eq | ne =>
    exact congrArg some (funext fun st => binary_relocate f sym loc (by simp) _ st)
  | mul =>
    refine congrArg some (funext fun st => binary_relocate f sym loc (fun a b => ?_) _ st)
    unfold product
    split
    · rfl
    · simp
  | _ => rfl

theorem cast_relocate (word target : String) (st : List Value) :
    cast (sym.relocate f) word target (f loc) st =
      relocateBy f id (cast sym word target loc st) := by
  unfold cast
  rw [Symbols.castTarget?_relocate]
  split <;> rfl

theorem constant_relocate (word : String) (st : List Value) :
    constant (sym.relocate f) word (f loc) st = relocateBy f id (constant sym word loc st) := by
  unfold constant
  rw [Symbols.findStructConst?_relocate, Symbols.findConst?_relocate]
  cases sym.findStructConst? word with
  | some found => simp
  | none =>
    cases sym.findConst? word with
    | some found => rfl
    | none => rfl

theorem word_relocate (text : String) (st : List Value) :
    word (sym.relocate f) text (f loc) st = relocateBy f id (word sym text loc st) := by
  unfold word
  cases Intrinsic.ofName? text with
  | none =>
    simp only [Option.bind_none]
    split
    · exact cast_relocate f sym loc _ _ st
    · exact constant_relocate f sym loc _ st
  | some i =>
    simp only [Option.bind_some, intrinsic?_relocate]
    cases intrinsic? sym loc i with
    | some effect => rfl
    | none =>
      simp only [Option.map_none]
      split
      · exact cast_relocate f sym loc _ _ st
      · exact constant_relocate f sym loc _ st

theorem token_relocate (t : Token) (st : List Value) :
    token (sym.relocate f) (t.relocate f) st = relocateBy f id (token sym t st) := by
  obtain ⟨kind, loc⟩ := t
  cases kind with
  | int | bool | ptr | keyword | str => rfl
  | word text => exact word_relocate f sym loc text st

theorem run_relocate (eof : Location) (st : List Value) (count : Nat) (ts : List Token) :
    run (sym.relocate f) (f eof) st count (ts.map (Token.relocate f)) =
      relocateBy f id (run sym eof st count ts) := by
  induction ts generalizing st count with
  | nil => rfl
  | cons t ts ih =>
    simp only [List.map_cons, run, token_relocate]
    by_cases hend : t.kind = .keyword .endKw
    · simp [hend, Token.relocate]
    · have hend' : (t.relocate f).kind ≠ .keyword .endKw := hend
      simp only [hend, hend', if_false]
      cases token sym t st with
      | ok st => exact ih st (count + 1)
      | error e => rfl

end Fold

namespace Folded

variable (f : Location → Location) (folded : Folded) (what : String) (loc : Location)

theorem ofTokens_relocate (sym : Symbols) (eof : Location) (ts : List Token) :
    ofTokens (sym.relocate f) (f eof) (ts.map (Token.relocate f)) =
      relocateBy f id (ofTokens sym eof ts) :=
  Fold.run_relocate f sym eof [] 0 ts

theorem require_relocate (count : Nat) :
    folded.require count what (f loc) = relocateBy f id (folded.require count what loc) := by
  unfold require
  split
  · rfl
  · split <;> rfl

theorem expect_relocate (count : Nat) (mayElide : Bool) :
    folded.expect count mayElide what (f loc) =
      relocateBy f id (folded.expect count mayElide what loc) := by
  unfold expect
  split
  · rfl
  · rw [require_relocate]
    exact relocateBy_map (by simp) _

theorem single_relocate :
    folded.single what (f loc) = relocateBy f id (folded.single what loc) := by
  unfold single
  split <;> rfl

end Folded

end StackEffect
