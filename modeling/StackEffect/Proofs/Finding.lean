import StackEffect.Proofs.MemberWords
import StackEffect.Proofs.Persistence

/-! # Declared words are found

A declaration is read only for a word without a meaning. Right behind it the word stands for the
entry that was added, wherever this entry can be seen, so it cannot be declared again there. The
exception are variables whose names start with a sigil: such a word asks for another variable, so it
still has no meaning. Members of structs are accessed by their names in the same way, except that a
star at the front of a name asks for an address.
-/

namespace StackEffect

/-- An entry of the tables that a word can stand for: its number, and for variables, struct
variables and regions the scope that holds it. -/
inductive Entity
  | const (index : Nat)
  | structConst (index : Nat)
  | var (scope : Scope) (index : Nat)
  | structVar (scope : Scope) (index : Nat)
  | region (scope : Scope) (index : Nat)
  | proc (index : Nat)
deriving DecidableEq, Repr

/-- The name of an entry and what a word of this name is to mean: the value of a constant, or those
of its members in order; a load of a variable, or of its slots in order; the address of a region; a
call of a procedure. -/
def Symbols.entity? (s : Symbols) : Entity → Option (String × Meaning)
  | .const i => s.consts[i]?.map fun c => (c.name, ⟨c.value.pushes, some c.loc⟩)
  | .structConst i => s.structConsts[i]?.map fun c =>
      (c.name, ⟨(s.constValues c).flatMap Value.pushes, some c.loc⟩)
  | .var scope i => (s.vars scope)[i]?.map fun v =>
      (v.name, ⟨[.loadVar ⟨scope, i⟩ v.value.ty], some v.loc⟩)
  | .structVar scope i => (s.structVars scope)[i]?.map fun v =>
      (v.name, ⟨(v.members.zip (s.members v.struct)).map fun slot =>
        .loadVar ⟨scope, slot.1⟩ slot.2.ty, some v.loc⟩)
  | .region scope i => (s.regions scope)[i]?.map fun g =>
      (g.name, ⟨[.pushMem ⟨scope, i⟩], some g.loc⟩)
  | .proc i => s.procs[i]?.map fun p => (p.name, ⟨[.call i], some p.loc⟩)

/-- An entry can be seen under its name: what a procedure has of its own is seen in its body only,
and what is global unless the procedure has something of the name that comes first. -/
def Entity.Visible (name : String) (r : Resolution) : Entity → Prop
  | .structConst _ => True
  | .const _ | .proc _ | .region .global _ =>
    ∀ id p, r.procedure? = some (id, p) → p.findMemory? name = none
  | .var .global _ | .structVar .global _ =>
    ∀ id p, r.procedure? = some (id, p) →
      p.findMemory? name = none ∧ p.findLocalStruct? name = none ∧ p.findLocal? name = none
  | .var (.frame id) _ | .structVar (.frame id) _ | .region (.frame id) _ => r.current = some id

namespace Resolution

def scope (r : Resolution) : Scope :=
  r.procedure?.elim .global fun found => .frame found.1

/-- The state as it is seen in the body of a procedure, or at top level. -/
def inScope (r : Resolution) (current : Option Nat) : Resolution :=
  { r with current := current }

end Resolution

namespace Shape

def entity? (r : Resolution) : Shape → Option Entity
  | .struct => none
  | .var _ => some (.var r.scope (r.symbols.vars r.scope).length)
  | .structVar _ _ => some (.structVar r.scope (r.symbols.structVars r.scope).length)
  | .memory => some (.region r.scope (r.symbols.regions r.scope).length)
  | .const _ | .untyped _ _ => some (.const r.symbols.consts.length)
  | .structConst _ _ => some (.structConst r.symbols.structConsts.length)
  | .proc => some (.proc r.symbols.procs.length)

def isVariable : Shape → Bool
  | .var _ | .structVar _ _ => true
  | .struct | .const _ | .structConst _ _ | .memory | .untyped _ _ | .proc => false

end Shape

namespace Resolution

/-- Behind a declaration a word stands for the entry that was added. -/
structure Finds (r r' : Resolution) (name : String) (loc : Location) (e : Entity) (m : Meaning) :
    Prop where
  fresh : r.symbols.entity? e = none
  entry : r'.symbols.entity? e = some (name, m)
  declared : m.declared = some loc
  visible : e.Visible name r'
  unbound : r'.binding? name = none
  found : ∀ current, e.Visible name (r'.inScope current) →
    (r'.inScope current).binding? name = none →
    ∀ here, (r'.inScope current).lookup name here = .ok (some m)

end Resolution

/-! ## Entries at the end of a table -/

namespace Named

variable {α : Type} [Named α] {wanted : String}

theorem last?_append_self (l : List α) {a : α} (ha : name a = wanted) :
    last? wanted (l ++ [a]) = some (l.length, a) := by
  induction l with
  | nil => simp [last?, ha]
  | cons b l ih => simp [last?, ih]

theorem first?_append_self {l : List α} {a : α} (hl : first? wanted l = none)
    (ha : name a = wanted) : first? wanted (l ++ [a]) = some (l.length, a) := by
  induction l with
  | nil => simp [first?, ha]
  | cons b l ih =>
    obtain ⟨hb, hrest⟩ := List.forall_mem_cons.mp (first?_eq_none.mp hl)
    simp [first?, hb, ih (first?_eq_none.mpr hrest)]

theorem last?_append_eq_none {l new : List α} (hl : last? wanted l = none)
    (hnew : ∀ a ∈ new, name a ≠ wanted) : last? wanted (l ++ new) = none :=
  (last?_append_of_ne l hnew).trans hl

theorem first?_append_eq_none {l new : List α} (hl : first? wanted l = none)
    (hnew : ∀ a ∈ new, name a ≠ wanted) : first? wanted (l ++ new) = none :=
  first?_eq_none.mpr (List.forall_mem_append.mpr ⟨first?_eq_none.mp hl, hnew⟩)

end Named

namespace Resolution

variable {r q : Resolution} {w : String} {loc : Location} {m : Meaning}

/-- The word has no fixed meaning: it is no member word, no primitive and no cast. -/
structure IsName (w : String) : Prop where
  member : memberAccess? w = none
  primitive : primitive? w = none
  cast : stripSigil? '#' w = none

theorem isName_of_lookup (h : r.lookup w loc = .ok none) : IsName w := by
  obtain ⟨⟨_, hmember, _, hprimitive⟩, hcast, _⟩ := lookup_eq_none h
  exact ⟨hmember, hprimitive, hcast⟩

theorem binding?_of_lookup (h : r.lookup w loc = .ok none) : r.binding? w = none := by
  obtain ⟨⟨_, _, hbinding, _⟩, _⟩ := lookup_eq_none h
  exact hbinding

theorem lookup_of_structConst? (h : q.structConst? w = some m) (loc : Location) :
    q.lookup w loc = .ok (some m) := by
  simp [lookup, h]

/-- Where a name is looked up that no struct constant has and that is not bound. -/
theorem IsName.lookup (h : IsName w) (hbinding : q.binding? w = none)
    (hconst : q.symbols.findStructConst? w = none) (loc : Location) :
    q.lookup w loc =
      .ok ((q.region? w).or ((q.call? w).or ((q.const? w).or (q.namedVar? w)))) := by
  simp [Resolution.lookup, structConst?, hconst, h.member, hbinding, h.primitive, h.cast]

theorem region?_eq_none_iff : q.region? w = none ↔
    (∀ id p, q.procedure? = some (id, p) → p.findMemory? w = none) ∧
      q.symbols.findMemory? w = none := by
  simp only [region?, Option.or_eq_none_iff, Option.map_eq_none_iff, Option.bind_eq_none_iff,
    Prod.forall]

theorem localVar?_eq_none_iff (access : Access) : q.localVar? access w = none ↔
    ∀ id p, q.procedure? = some (id, p) →
      p.findLocalStruct? w = none ∧ p.findLocal? w = none := by
  simp only [localVar?, Option.or_eq_none_iff, Option.map_eq_none_iff, Option.bind_eq_none_iff,
    Prod.forall]

theorem region?_of_global {i : Nat} {g : Region}
    (hown : ∀ id p, q.procedure? = some (id, p) → p.findMemory? w = none)
    (hg : q.symbols.findMemory? w = some (i, g)) :
    q.region? w = some ⟨[.pushMem ⟨.global, i⟩], some g.loc⟩ := by
  rw [region?, hg]
  cases hproc : q.procedure? with
  | none => rfl
  | some found => simp [hown found.1 found.2 hproc]

theorem region?_of_own {id i : Nat} {p : Procedure} {g : Region}
    (hproc : q.procedure? = some (id, p)) (hg : p.findMemory? w = some (i, g)) :
    q.region? w = some ⟨[.pushMem ⟨.frame id, i⟩], some g.loc⟩ := by
  simp [region?, hproc, hg]

theorem localVar?_of_struct {id i : Nat} {p : Procedure} {v : Aggregate} {access : Access}
    (hproc : q.procedure? = some (id, p)) (hv : p.findLocalStruct? w = some (i, v)) :
    q.localVar? access w =
      some ⟨access.structOps (.frame id) v (q.symbols.members v.struct), some v.loc⟩ := by
  simp [localVar?, hproc, hv]

theorem localVar?_of_scalar {id i : Nat} {p : Procedure} {v : Scalar} {access : Access}
    (hproc : q.procedure? = some (id, p)) (hstruct : p.findLocalStruct? w = none)
    (hv : p.findLocal? w = some (i, v)) :
    q.localVar? access w = some ⟨[access.scalarOp ⟨.frame id, i⟩ v.value.ty], some v.loc⟩ := by
  simp [localVar?, hproc, hstruct, hv]

theorem globalVar?_of_struct {i : Nat} {v : Aggregate} {access : Access}
    (hv : q.symbols.findGlobalStruct? w = some (i, v)) :
    q.globalVar? access w =
      some ⟨access.structOps .global v (q.symbols.members v.struct), some v.loc⟩ := by
  rw [globalVar?, hv]
  rfl

theorem globalVar?_of_scalar {i : Nat} {v : Scalar} {access : Access}
    (hstruct : q.symbols.findGlobalStruct? w = none)
    (hv : q.symbols.findGlobal? w = some (i, v)) :
    q.globalVar? access w = some ⟨[access.scalarOp ⟨.global, i⟩ v.value.ty], some v.loc⟩ := by
  rw [globalVar?, hstruct, hv]
  rfl

theorem namedVar?_of_load (h : (Access.ofWord w).1 = .load) :
    q.namedVar? w = (q.localVar? .load w).or (q.globalVar? .load w) := by
  have hword : Access.ofWord w = (.load, w) := Prod.ext h (Access.ofWord_of_load h)
  simp only [namedVar?, hword]

/-! ## Where a name is found -/

section Stages

variable (hname : IsName w) (hbinding : q.binding? w = none)
  (hstructConst : q.symbols.findStructConst? w = none)

include hname hbinding hstructConst

theorem lookup_of_region? (hm : q.region? w = some m) (loc : Location) :
    q.lookup w loc = .ok (some m) := by
  rw [hname.lookup hbinding hstructConst, hm, Option.some_or]

variable (hregion : q.region? w = none)

include hregion

theorem lookup_of_findProc? {i : Nat} {p : Procedure} (hp : q.symbols.findProc? w = some (i, p))
    (loc : Location) : q.lookup w loc = .ok (some ⟨[.call i], some p.loc⟩) := by
  rw [hname.lookup hbinding hstructConst, hregion, call?, hp]
  rfl

variable (hproc : q.symbols.findProc? w = none)

include hproc

theorem lookup_of_findConst? {i : Nat} {c : Scalar} (hc : q.symbols.findConst? w = some (i, c))
    (loc : Location) : q.lookup w loc = .ok (some ⟨c.value.pushes, some c.loc⟩) := by
  rw [hname.lookup hbinding hstructConst, hregion, call?, hproc, const?, hc]
  rfl

theorem lookup_eq_namedVar? (hconst : q.symbols.findConst? w = none) (loc : Location) :
    q.lookup w loc = .ok (q.namedVar? w) := by
  rw [hname.lookup hbinding hstructConst, hregion, call?, hproc, const?, hconst]
  rfl

end Stages

/-- A global variable is found where nothing else has its name. -/
theorem lookup_of_globalVar? (hname : IsName w) (hbinding : q.binding? w = none)
    (hstructConst : q.symbols.findStructConst? w = none)
    (hmemory : q.symbols.findMemory? w = none) (hproc : q.symbols.findProc? w = none)
    (hconst : q.symbols.findConst? w = none)
    (hown : ∀ id p, q.procedure? = some (id, p) →
      p.findMemory? w = none ∧ p.findLocalStruct? w = none ∧ p.findLocal? w = none)
    (hload : (Access.ofWord w).1 = .load) (hm : q.globalVar? .load w = some m) (loc : Location) :
    q.lookup w loc = .ok (some m) := by
  have hregion : q.region? w = none :=
    region?_eq_none_iff.mpr ⟨fun id p hp => (hown id p hp).1, hmemory⟩
  have hlocal : q.localVar? .load w = none :=
    (localVar?_eq_none_iff .load).mpr fun id p hp => (hown id p hp).2
  rw [lookup_eq_namedVar? hname hbinding hstructConst hregion hproc hconst,
    namedVar?_of_load hload, hlocal, Option.none_or, hm]

/-! ## Global entries -/

section Globals

variable (hnone : r.lookup w loc = .ok none)

include hnone

theorem finds_const (value : Value) :
    Finds r { r with symbols := (r.symbols.addConst ⟨w, value, loc⟩).2 } w loc
      (.const r.symbols.consts.length) ⟨value.pushes, some loc⟩ := by
  have hname := isName_of_lookup hnone
  have hunused := unused_of_lookup hnone
  obtain ⟨⟨_, _, hbinding, _⟩, _, hregion, _⟩ := lookup_eq_none hnone
  refine ⟨by simp [Symbols.entity?], by simp [Symbols.entity?, Symbols.addConst], rfl,
    (region?_eq_none_iff.mp hregion).1, hbinding, fun current hvisible hbound here => ?_⟩
  exact lookup_of_findConst? hname hbound hunused.structConst
    (region?_eq_none_iff.mpr ⟨hvisible, hunused.region⟩) hunused.proc
    (Named.last?_append_self _ rfl) here

theorem finds_structConst (new : List Scalar) {c : Aggregate} (hc : c.name = w)
    (hloc : c.loc = loc) :
    ∃ m, Finds r { r with symbols := { r.symbols with
        consts := r.symbols.consts ++ new
        structConsts := r.symbols.structConsts ++ [c] } } w loc
      (.structConst r.symbols.structConsts.length) m := by
  subst hloc
  have hbinding := binding?_of_lookup hnone
  refine ⟨_, by simp [Symbols.entity?], by simp [Symbols.entity?, hc]; rfl, rfl, trivial, hbinding,
    fun current _ _ here => lookup_of_structConst? ?_ here⟩
  have hfound := Named.last?_append_self r.symbols.structConsts hc
  simp only [structConst?, inScope, Symbols.findStructConst?, hfound]
  rfl

theorem finds_proc {p : Procedure} (hp : p.name = w) (hloc : p.loc = loc)
    (hmemory : p.memory = {}) (hbindings : p.bindings = []) (code : Code) :
    Finds r { r with
        symbols := (r.symbols.addProc p).2
        code := code
        current := some r.symbols.procs.length } w loc
      (.proc r.symbols.procs.length) ⟨[.call r.symbols.procs.length], some loc⟩ := by
  subst hloc
  have hname := isName_of_lookup hnone
  have hunused := unused_of_lookup hnone
  refine ⟨by simp [Symbols.entity?], by simp [Symbols.entity?, Symbols.addProc, hp], rfl, ?_, ?_,
    fun current hvisible hbound here => ?_⟩
  · intro id q hq
    obtain ⟨hid, hq⟩ := procedure?_eq_some.mp hq
    cases hid
    obtain rfl : p = q := by simpa [Symbols.addProc] using hq
    simp [Procedure.findMemory?, hmemory, Named.first?]
  · simp [binding?, procedure?, Symbols.addProc, Procedure.bindingDepth?, hbindings]
  · exact lookup_of_findProc? hname hbound hunused.structConst
      (region?_eq_none_iff.mpr ⟨hvisible, hunused.region⟩) (Named.last?_append_self _ hp) here

theorem finds_region {size : Nat} {memory : Memory} (htop : r.procedure? = none)
    (hmemory : r.symbols.memory.reserve? w size loc = some memory) :
    Finds r { r with symbols := { r.symbols with memory := memory } } w loc
      (.region .global r.symbols.memory.regions.length)
      ⟨[.pushMem ⟨.global, r.symbols.memory.regions.length⟩], some loc⟩ := by
  have hname := isName_of_lookup hnone
  have hunused := unused_of_lookup hnone
  have hbinding := binding?_of_lookup hnone
  obtain ⟨g, hg, rfl, hregions⟩ := Memory.regions_of_reserve? hmemory
  refine ⟨by simp [Symbols.entity?, Symbols.regions],
    by simp [Symbols.entity?, Symbols.regions, hregions, hg], rfl, ?_, hbinding,
    fun current hvisible hbound here => ?_⟩
  · exact fun id p hp => absurd (htop.symm.trans hp) (by simp)
  · have hfound := Named.last?_append_self r.symbols.memory.regions hg
    rw [← hregions] at hfound
    exact lookup_of_region? hname hbound hunused.structConst
      (region?_of_global hvisible hfound) here

variable (hload : (Access.ofWord w).1 = .load)

include hload

theorem finds_var (htop : r.procedure? = none) (value : Value) :
    Finds r { r with symbols := (r.symbols.addGlobal ⟨w, value, loc⟩).2 } w loc
      (.var .global r.symbols.globals.length)
      ⟨[.loadVar ⟨.global, r.symbols.globals.length⟩ value.ty], some loc⟩ := by
  have hname := isName_of_lookup hnone
  have hunused := unused_of_lookup hnone
  have hbinding := binding?_of_lookup hnone
  refine ⟨by simp [Symbols.entity?, Symbols.vars],
    by simp [Symbols.entity?, Symbols.vars, Symbols.addGlobal], rfl, ?_, hbinding,
    fun current hvisible hbound here => ?_⟩
  · exact fun id p hp => absurd (htop.symm.trans hp) (by simp)
  · have hstructVar := hunused.structVar
    rw [Access.ofWord_of_load hload] at hstructVar
    have hfound : (r.symbols.addGlobal ⟨w, value, loc⟩).2.findGlobal? w = some (_, _) :=
      Named.last?_append_self r.symbols.globals rfl
    exact lookup_of_globalVar? hname hbound hunused.structConst hunused.region hunused.proc
      hunused.const hvisible hload (globalVar?_of_scalar hstructVar hfound) here

theorem finds_structVar (htop : r.procedure? = none) (new : List Scalar) {v : Aggregate}
    (hv : v.name = w) (hloc : v.loc = loc) :
    ∃ m, Finds r { r with symbols := { r.symbols with
        globals := r.symbols.globals ++ new
        globalStructs := r.symbols.globalStructs ++ [v] } } w loc
      (.structVar .global r.symbols.globalStructs.length) m := by
  subst hloc
  have hname := isName_of_lookup hnone
  have hunused := unused_of_lookup hnone
  have hbinding := binding?_of_lookup hnone
  refine ⟨_, by simp [Symbols.entity?, Symbols.structVars],
    by simp [Symbols.entity?, Symbols.structVars, hv]; rfl, rfl, ?_, hbinding,
    fun current hvisible hbound here => ?_⟩
  · exact fun id p hp => absurd (htop.symm.trans hp) (by simp)
  · exact lookup_of_globalVar? hname hbound hunused.structConst hunused.region hunused.proc
      hunused.const hvisible hload (globalVar?_of_struct (Named.last?_append_self _ hv)) here

end Globals

/-! ## Entries of a procedure -/

section Locals

variable {pid : Nat} {p p' : Procedure} (hproc : r.procedure? = some (pid, p))

include hproc

theorem inScope_setProcedure :
    (r.setProcedure pid p').inScope (some pid) = r.setProcedure pid p' := by
  rw [← (procedure?_eq_some.mp hproc).1]
  rfl

theorem getElem?_setProcedure : (r.setProcedure pid p').symbols.procs[pid]? = some p' :=
  (procedure?_eq_some.mp (procedure?_setProcedure hproc p')).2

variable (hnone : r.lookup w loc = .ok none)

include hnone

variable (hsame : p'.name = p.name ∧ p'.loc = p.loc ∧ p'.bindings = p.bindings)

include hsame

theorem binding?_setProcedure : (r.setProcedure pid p').binding? w = none := by
  have hbinding := binding?_of_lookup hnone
  simpa [binding?, procedure?_setProcedure hproc, hproc, Procedure.bindingDepth?, hsame.2.2]
    using hbinding

/-- Nothing but what a procedure has of its own can be found for a word that had no meaning. -/
theorem lookup_setProcedure (here : Location) :
    (r.setProcedure pid p').lookup w here =
      .ok (((r.setProcedure pid p').region? w).or ((r.setProcedure pid p').namedVar? w)) := by
  have hunused := unused_of_lookup hnone
  have hcall : (r.setProcedure pid p').symbols.findProc? w = none := by
    have hmodify := Named.last?_modify (procedure?_eq_some.mp hproc).2 hsame.1 hsame.2.1 w
    rw [show Named.last? w r.symbols.procs = none from hunused.proc] at hmodify
    exact Option.map_eq_none_iff.mp hmodify
  have hbinding := binding?_setProcedure hproc hnone hsame
  have hconst : (r.setProcedure pid p').const? w = none :=
    Option.map_eq_none_iff.mpr hunused.const
  rw [(isName_of_lookup hnone).lookup hbinding hunused.structConst, call?, hcall, hconst]
  rfl

theorem lookup_setProcedure_of_memory (hmemory : p'.memory = p.memory) (here : Location) :
    (r.setProcedure pid p').lookup w here = .ok ((r.setProcedure pid p').namedVar? w) := by
  have hregion : (r.setProcedure pid p').region? w = none := by
    obtain ⟨_, _, hregion, _⟩ := lookup_eq_none hnone
    refine region?_eq_none_iff.mpr ⟨fun id own hown => ?_, (unused_of_lookup hnone).region⟩
    rw [procedure?_setProcedure hproc] at hown
    cases hown
    rw [Procedure.findMemory?, hmemory]
    exact (region?_eq_none_iff.mp hregion).1 pid p hproc
  rw [lookup_setProcedure hproc hnone hsame, hregion, Option.none_or]

end Locals

section Locals

variable {pid : Nat} {p : Procedure} (hproc : r.procedure? = some (pid, p))
  (hnone : r.lookup w loc = .ok none)

include hproc hnone

theorem finds_localRegion {size : Nat} {memory : Memory}
    (hmemory : p.memory.reserve? w size loc = some memory) :
    Finds r (r.setProcedure pid { p with memory := memory }) w loc
      (.region (.frame pid) p.memory.regions.length)
      ⟨[.pushMem ⟨.frame pid, p.memory.regions.length⟩], some loc⟩ := by
  obtain ⟨hcurrent, hp⟩ := procedure?_eq_some.mp hproc
  obtain ⟨g, hg, rfl, hregions⟩ := Memory.regions_of_reserve? hmemory
  obtain ⟨_, _, hregion, _⟩ := lookup_eq_none hnone
  refine ⟨by simp [Symbols.entity?, Symbols.regions, hp],
    by simp [Symbols.entity?, Symbols.regions, getElem?_setProcedure hproc, hregions, hg], rfl,
    hcurrent, binding?_setProcedure hproc hnone ⟨rfl, rfl, rfl⟩, fun current hvisible _ here => ?_⟩
  obtain rfl : current = some pid := hvisible
  have hfound : Procedure.findMemory? { p with memory := memory } w =
        some (p.memory.regions.length, g) := by
    rw [Procedure.findMemory?, hregions]
    exact Named.first?_append_self ((region?_eq_none_iff.mp hregion).1 pid p hproc) hg
  rw [inScope_setProcedure hproc, lookup_setProcedure hproc hnone ⟨?_, ?_, ?_⟩,
    region?_of_own (procedure?_setProcedure hproc _) hfound]
  all_goals rfl

variable (hload : (Access.ofWord w).1 = .load)

include hload

theorem own_var_eq_none : p.findLocalStruct? w = none ∧ p.findLocal? w = none := by
  obtain ⟨_, _, _, _, _, hvar⟩ := lookup_eq_none hnone
  rw [namedVar?_of_load hload, Option.or_eq_none_iff] at hvar
  exact (localVar?_eq_none_iff .load).mp hvar.1 pid p hproc

theorem finds_localVar (value : Value) :
    Finds r (r.setProcedure pid (p.addLocal ⟨w, value, loc⟩).2) w loc
      (.var (.frame pid) p.locals.length)
      ⟨[.loadVar ⟨.frame pid, p.locals.length⟩ value.ty], some loc⟩ := by
  obtain ⟨hcurrent, hp⟩ := procedure?_eq_some.mp hproc
  obtain ⟨hstruct, hvar⟩ := own_var_eq_none hproc hnone hload
  refine ⟨by simp [Symbols.entity?, Symbols.vars, hp],
    by simp [Symbols.entity?, Symbols.vars, getElem?_setProcedure hproc, Procedure.addLocal], rfl,
    hcurrent, binding?_setProcedure hproc hnone ⟨rfl, rfl, rfl⟩, fun current hvisible _ here => ?_⟩
  obtain rfl : current = some pid := hvisible
  have hfound : (p.addLocal ⟨w, value, loc⟩).2.findLocal? w =
      some (p.locals.length, ⟨w, value, loc⟩) := Named.first?_append_self hvar rfl
  have hother : (p.addLocal ⟨w, value, loc⟩).2.findLocalStruct? w = none := hstruct
  rw [inScope_setProcedure hproc, lookup_setProcedure_of_memory hproc hnone ⟨?_, ?_, ?_⟩ ?_,
    namedVar?_of_load hload, localVar?_of_scalar (procedure?_setProcedure hproc _) hother hfound]
  all_goals rfl

theorem finds_localStructVar (new : List Scalar) {v : Aggregate} (hv : v.name = w)
    (hloc : v.loc = loc) :
    ∃ m, Finds r (r.setProcedure pid { p with
        locals := p.locals ++ new
        localStructs := p.localStructs ++ [v] }) w loc
      (.structVar (.frame pid) p.localStructs.length) m := by
  subst hloc
  obtain ⟨hcurrent, hp⟩ := procedure?_eq_some.mp hproc
  obtain ⟨hstruct, _⟩ := own_var_eq_none hproc hnone hload
  refine ⟨_, by simp [Symbols.entity?, Symbols.structVars, hp],
    by simp [Symbols.entity?, Symbols.structVars, getElem?_setProcedure hproc, hv]; rfl, rfl,
    hcurrent, binding?_setProcedure hproc hnone ⟨rfl, rfl, rfl⟩, fun current hvisible _ here => ?_⟩
  obtain rfl : current = some pid := hvisible
  have hfound : Procedure.findLocalStruct? { p with
      locals := p.locals ++ new
      localStructs := p.localStructs ++ [v] } w = some (p.localStructs.length, v) :=
    Named.first?_append_self hstruct hv
  rw [inScope_setProcedure hproc, lookup_setProcedure_of_memory hproc hnone ⟨?_, ?_, ?_⟩ ?_,
    namedVar?_of_load hload, localVar?_of_struct (procedure?_setProcedure hproc _) hfound]
  all_goals rfl

end Locals

end Resolution

/-! ## Names with sigils -/

theorem toList_of_stripSigil? {sigil : Char} {text rest : String}
    (h : stripSigil? sigil text = some rest) : text.toList = sigil :: rest.toList := by
  unfold stripSigil? at h
  split at h
  · rename_i c cs hcs
    split at h
    · rename_i hc
      cases h
      rw [hcs, hc, String.toList_ofList]
    · cases h
  · cases h

namespace Access

/-- A word with a sigil is longer than the name of the variable that it asks for. -/
theorem append_ne_of_sigil {w : String} (h : (ofWord w).1 ≠ load) (suffix : String) :
    w ++ suffix ≠ (ofWord w).2 := by
  obtain ⟨sigil, hsigil⟩ : ∃ sigil, w.toList = sigil :: (ofWord w).2.toList := by
    unfold ofWord at h ⊢
    split
    · exact ⟨_, toList_of_stripSigil? ‹_›⟩
    · split
      · exact ⟨_, toList_of_stripSigil? ‹_›⟩
      · simp_all
  intro heq
  have hlength := congrArg (fun text => text.toList.length) heq
  simp only [String.toList_append, List.length_append, hsigil, List.length_cons] at hlength
  omega

theorem ne_of_sigil {w : String} (h : (ofWord w).1 ≠ load) : w ≠ (ofWord w).2 := by
  simpa using append_ne_of_sigil h ""

end Access

theorem StructDef.scalars_ne_of_sigil {w : String} (h : (Access.ofWord w).1 ≠ .load)
    (d : StructDef) (values : List Value) (loc : Location) :
    ∀ v ∈ d.scalars w values loc, v.name ≠ (Access.ofWord w).2 := by
  intro v hv
  obtain ⟨⟨value, m⟩, _, rfl⟩ := List.mem_map.mp hv
  have hne := Access.append_ne_of_sigil h ("." ++ m.name)
  rw [← String.append_assoc] at hne
  exact hne

namespace Resolution

variable {r r' q : Resolution} {w : String} {loc eof : Location} {rest : List Token} {used : Nat}

theorem namedVar?_eq_none_iff : q.namedVar? w = none ↔
    (∀ id p, q.procedure? = some (id, p) → p.findLocalStruct? (Access.ofWord w).2 = none ∧
      p.findLocal? (Access.ofWord w).2 = none) ∧
    q.symbols.findGlobalStruct? (Access.ofWord w).2 = none ∧
    q.symbols.findGlobal? (Access.ofWord w).2 = none := by
  rw [← localVar?_eq_none_iff (Access.ofWord w).1]
  simp [namedVar?, globalVar?]

/-- New global variables of other names do not give a word a meaning. -/
theorem lookup_globals_eq_none (hnone : r.lookup w loc = .ok none) {globals : List Scalar}
    {globalStructs : List Aggregate} (hglobals : Named.last? (Access.ofWord w).2 globals = none)
    (hstructs : Named.last? (Access.ofWord w).2 globalStructs = none) (here : Location) :
    lookup { r with symbols := { r.symbols with
      globals := globals, globalStructs := globalStructs } } w here = .ok none := by
  have hunused := unused_of_lookup hnone
  obtain ⟨⟨_, _, hbinding, _⟩, _, hregion, _, _, hvar⟩ := lookup_eq_none hnone
  have hnew : namedVar? { r with symbols := { r.symbols with
      globals := globals, globalStructs := globalStructs } } w = none :=
    namedVar?_eq_none_iff.mpr ⟨(namedVar?_eq_none_iff.mp hvar).1, hstructs, hglobals⟩
  have hlookup := lookup_eq_namedVar? (q := { r with symbols := { r.symbols with
      globals := globals, globalStructs := globalStructs } }) (isName_of_lookup hnone) hbinding
    hunused.structConst hregion hunused.proc hunused.const here
  rw [hlookup, hnew]

/-- New variables of a procedure, of other names, do not give a word a meaning. -/
theorem lookup_locals_eq_none (hnone : r.lookup w loc = .ok none) {pid : Nat} {p : Procedure}
    (hproc : r.procedure? = some (pid, p)) {locals : List Scalar} {localStructs : List Aggregate}
    (hlocals : Named.first? (Access.ofWord w).2 locals = none)
    (hstructs : Named.first? (Access.ofWord w).2 localStructs = none) (here : Location) :
    (r.setProcedure pid { p with locals := locals, localStructs := localStructs }).lookup w here =
      .ok none := by
  have hunused := unused_of_lookup hnone
  rw [lookup_setProcedure_of_memory hproc hnone ⟨?_, ?_, ?_⟩ ?_, namedVar?_eq_none_iff.mpr]
  · refine ⟨fun id own hown => ?_, hunused.structVar, hunused.var⟩
    rw [procedure?_setProcedure hproc] at hown
    cases hown
    exact ⟨hstructs, hlocals⟩
  all_goals rfl

theorem lookup_of_sigil {shape : Shape} (hnone : r.lookup w loc = .ok none)
    (hvariable : shape.isVariable) (hsigil : (Access.ofWord w).1 ≠ .load)
    (hr : r.declareShape eof w loc rest shape = .ok (r', used)) (here : Location) :
    r'.lookup w here = .ok none := by
  have hunused := unused_of_lookup hnone
  obtain ⟨_, _, _, _, _, hvar⟩ := lookup_eq_none hnone
  have hown := (namedVar?_eq_none_iff.mp hvar).1
  have hname : w ≠ (Access.ofWord w).2 := Access.ne_of_sigil hsigil
  cases shape with
  | var ty =>
    obtain ⟨_, value, _, _, rfl, _⟩ := declareVar_eq_ok hr
    cases hproc : r.procedure? with
    | none =>
      simp only [addVar, hproc]
      exact lookup_globals_eq_none hnone
        (Named.last?_append_eq_none hunused.var (List.forall_mem_singleton.mpr hname))
        hunused.structVar here
    | some found =>
      obtain ⟨hstruct, hscalar⟩ := hown found.1 found.2 hproc
      simp only [addVar, hproc]
      exact lookup_locals_eq_none hnone hproc
        (Named.first?_append_eq_none hscalar (List.forall_mem_singleton.mpr hname)) hstruct here
  | structVar id d =>
    cases hproc : r.procedure? with
    | none =>
      obtain ⟨values, _, rfl⟩ := declareStructVar_eq_globals hproc hr
      exact lookup_globals_eq_none hnone
        (Named.last?_append_eq_none hunused.var (d.scalars_ne_of_sigil hsigil values loc))
        (Named.last?_append_eq_none hunused.structVar (List.forall_mem_singleton.mpr hname)) here
    | some found =>
      obtain ⟨hstruct, hscalar⟩ := hown found.1 found.2 hproc
      obtain ⟨values, _, rfl⟩ := declareStructVar_eq_locals hproc hr
      exact lookup_locals_eq_none hnone hproc
        (Named.first?_append_eq_none hscalar (d.scalars_ne_of_sigil hsigil values loc))
        (Named.first?_append_eq_none hstruct (List.forall_mem_singleton.mpr hname)) here
  | struct | const | structConst | memory | untyped | proc => cases hvariable

/-! ## All declarations -/

theorem scope_of_top (htop : r.procedure? = none) : r.scope = .global := by
  simp [scope, htop]

/-- Inside a procedure the tables of the scope are those of the procedure. -/
theorem scope_of_procedure {pid : Nat} {p : Procedure} (hproc : r.procedure? = some (pid, p)) :
    r.scope = .frame pid ∧ r.symbols.vars (.frame pid) = p.locals ∧
      r.symbols.structVars (.frame pid) = p.localStructs ∧
      r.symbols.regions (.frame pid) = p.memory.regions := by
  have hp := (procedure?_eq_some.mp hproc).2
  simp [scope, hproc, Symbols.vars, Symbols.structVars, Symbols.regions, hp]

theorem declareMemory_finds (hnone : r.lookup w loc = .ok none)
    (hr : r.declareMemory eof w loc rest = .ok (r', used)) :
    ∃ m, Finds r r' w loc (.region r.scope (r.symbols.regions r.scope).length) m := by
  obtain ⟨size, hmemory⟩ := addMemory?_of_declareMemory hr
  cases hproc : r.procedure? with
  | none =>
    simp only [addMemory?, hproc, Symbols.addMemory?, Option.map_map,
      Option.map_eq_some_iff] at hmemory
    obtain ⟨memory, hmemory, rfl⟩ := hmemory
    rw [scope_of_top hproc]
    exact ⟨_, finds_region hnone hproc hmemory⟩
  | some found =>
    obtain ⟨hscope, _, _, hregions⟩ := scope_of_procedure hproc
    simp only [addMemory?, hproc, Procedure.addMemory?_eq, Option.map_map,
      Option.map_eq_some_iff] at hmemory
    obtain ⟨memory, hmemory, rfl⟩ := hmemory
    rw [hscope, hregions]
    exact ⟨_, finds_localRegion hproc hnone hmemory⟩

theorem addVar_finds (hnone : r.lookup w loc = .ok none) (hload : (Access.ofWord w).1 = .load)
    (value : Value) : ∃ m, Finds r (r.addVar ⟨w, value, loc⟩).2 w loc
      (.var r.scope (r.symbols.vars r.scope).length) m := by
  cases hproc : r.procedure? with
  | none =>
    simp only [addVar, hproc, scope_of_top hproc]
    exact ⟨_, finds_var hnone hload hproc _⟩
  | some found =>
    obtain ⟨hscope, hvars, _⟩ := scope_of_procedure hproc
    simp only [addVar, hproc, hscope, hvars]
    exact ⟨_, finds_localVar hproc hnone hload _⟩

theorem declareStructVar_finds {id : Nat} {d : StructDef} (hnone : r.lookup w loc = .ok none)
    (hload : (Access.ofWord w).1 = .load)
    (hr : r.declareStructVar eof w loc rest id d = .ok (r', used)) :
    ∃ m, Finds r r' w loc (.structVar r.scope (r.symbols.structVars r.scope).length) m := by
  cases hproc : r.procedure? with
  | none =>
    obtain ⟨values, _, rfl⟩ := declareStructVar_eq_globals hproc hr
    rw [scope_of_top hproc]
    exact finds_structVar hnone hload hproc _ rfl rfl
  | some found =>
    obtain ⟨hscope, _, hstructVars, _⟩ := scope_of_procedure hproc
    obtain ⟨values, _, rfl⟩ := declareStructVar_eq_locals hproc hr
    rw [hscope, hstructVars]
    exact finds_localStructVar hproc hnone hload _ rfl rfl

/-- A declaration is found under its name, unless it is a variable with a sigil in its name. -/
theorem declareShape_finds {shape : Shape} {e : Entity} (hnone : r.lookup w loc = .ok none)
    (he : shape.entity? r = some e)
    (hload : shape.isVariable → (Access.ofWord w).1 = .load)
    (hr : r.declareShape eof w loc rest shape = .ok (r', used)) :
    ∃ m, Finds r r' w loc e m := by
  cases shape with
  | struct => cases he
  | const ty =>
    cases he
    obtain ⟨_, value, _, _, _, rfl, _⟩ := declareConst_eq_ok hr
    exact ⟨_, finds_const hnone _⟩
  | untyped value consumed =>
    cases he
    cases hr
    exact ⟨_, finds_const hnone _⟩
  | structConst id d =>
    cases he
    obtain ⟨values, _, rfl⟩ := declareStructConst_eq hr
    exact finds_structConst hnone _ rfl rfl
  | proc =>
    cases he
    obtain ⟨_, p, hname, hloc, hblank, _, _, rfl⟩ := declareProc_eq_ok hr
    exact ⟨_, finds_proc hnone hname hloc hblank.memory hblank.bindings _⟩
  | memory =>
    cases he
    exact declareMemory_finds hnone hr
  | var ty =>
    cases he
    obtain ⟨_, value, _, _, rfl, _⟩ := declareVar_eq_ok hr
    exact addVar_finds hnone (hload rfl) _
  | structVar id d =>
    cases he
    exact declareStructVar_finds hnone (hload rfl) hr

/-! ## Second declarations -/

/-- Behind its word a declaration starts with a keyword that cannot stand in a body. -/
theorem keyword_of_classify {sym : Symbols} {shape : Shape}
    (h : Shape.classify sym w loc eof rest = .ok shape) :
    ∃ k at' tail, rest = ⟨.keyword k, at'⟩ :: tail ∧ ∀ q : Resolution,
      q.keyword k at' eof tail = .error ((Cause.unexpectedKeyword k.text).fault at') := by
  unfold Shape.classify at h
  cases rest with
  | nil => cases h
  | cons t tail =>
    obtain ⟨kind, at'⟩ := t
    by_cases hcolon : kind = .keyword .colon
    · subst hcolon
      exact ⟨.colon, at', tail, rfl, fun _ => rfl⟩
    · have hcount : ((⟨kind, at'⟩ :: tail : List Token).takeWhile Token.isColon).length = 0 := by
        simp [Token.isColon, hcolon]
      rw [hcount] at h
      unfold Shape.ofPlain at h
      simp only at h
      split at h
      · rename_i heq
        cases heq
        exact ⟨.structKw, at', tail, rfl, fun _ => rfl⟩
      · rename_i k _ _ _ heq
        cases heq
        refine ⟨k, at', tail, rfl, fun q => ?_⟩
        cases k with
        | intKw | boolKw | ptrKw | structKw | arrow | colon => rfl
        | ifKw | elseKw | endKw | letKw => cases h
      · cases h

/-- A word that was declared at a place cannot be declared in a state: no declaration of it is
accepted, and at top level the complaint points at the place. -/
structure Refuses (eof : Location) (q : Resolution) (w : String) (declared : Location) : Prop where
  rejected : ∀ here rest shape, Shape.classify q.symbols w here eof rest = .ok shape →
    ∃ f, run eof 0 q (⟨.word w, here⟩ :: rest) = .error f
  atTop : q.current = none → ∀ here rest, q.step eof ⟨.word w, here⟩ rest =
    .error (((Cause.usedOutside w).fault here).note (.alreadyDeclared w) declared)

theorem refuses_of_lookup {m : Meaning} {declared : Location}
    (hm : ∀ here, q.lookup w here = .ok (some m)) (hdeclared : m.declared = some declared) :
    Refuses eof q w declared where
  rejected here rest shape hshape := by
    by_cases htop : q.current = none
    · refine ⟨usedOutside w here m, ?_⟩
      simp [run, step, word, hm here, htop]
    · obtain ⟨k, at', tail, rfl, hkeyword⟩ := keyword_of_classify hshape
      refine ⟨(Cause.unexpectedKeyword k.text).fault at', ?_⟩
      simp [run, step, word, hm here, htop, hkeyword]
  atTop htop here rest := by
    simp [step, word, hm here, htop, usedOutside, hdeclared]

/-- The next token is a word without a meaning, whose declaration succeeds. -/
structure DeclaresNext (eof : Location) (r : Resolution) (t : Token) (rest : List Token)
    (w : String) (shape : Shape) (r' : Resolution) : Prop where
  isWord : t.kind = .word w
  unknown : r.lookup w t.loc = .ok none
  classified : Shape.classify r.symbols w t.loc eof rest = .ok shape
  accepted : ∃ used, r.step eof t rest = .ok (r', used)

theorem DeclaresNext.declareShape {t : Token} {shape : Shape}
    (h : DeclaresNext eof r t rest w shape r') :
    ∃ used, r.declareShape eof w t.loc rest shape = .ok (r', used) := by
  obtain ⟨used, hstep⟩ := h.accepted
  refine ⟨used, ?_⟩
  simp only [step, h.isWord, word, h.unknown, ok_bind, declare] at hstep
  split at hstep
  · cases hstep
  · rwa [h.classified, ok_bind] at hstep

end Resolution

/-- A declared word can be used. At every point of a resolution, a word that is declared next stands
right behind that for the entry that was added, in every scope where the entry can be seen and the
word is not bound, and cannot be declared again there; the exception are variables with a sigil at
the front of their names, for which the word still has no meaning. For each member of a struct that
has been declared, the word with a dot and a star stands for its address, and the word with a dot
for its value, unless its name starts with a star, which asks for an address. -/
theorem declared_words_are_found {file source : String} {s : TokenStream} {r : Resolution}
    {ts : List Token} (hs : TokenStream.ofSource file source = .ok s)
    (hr : Resolution.Reaches s.eof {} s.tokens r ts) :
    (∀ t rest w shape e r', ts = t :: rest → r.DeclaresNext s.eof t rest w shape r' →
      shape.entity? r = some e →
      ((shape.isVariable → (Access.ofWord w).1 = .load) →
        (∃ m, r.Finds r' w t.loc e m) ∧
        ∀ current, e.Visible w (r'.inScope current) → (r'.inScope current).binding? w = none →
          (r'.inScope current).Refuses s.eof w t.loc) ∧
      (shape.isVariable → (Access.ofWord w).1 ≠ .load → ∀ here, r'.lookup w here = .ok none)) ∧
    ∀ d ∈ r.symbols.structs, ∀ m ∈ d.members, ∀ here,
      r.lookup ("." ++ ("*" ++ m.name)) here = .ok (some { ops := [.member .addr m.name none] }) ∧
      (stripSigil? '*' m.name = none →
        r.lookup ("." ++ m.name) here = .ok (some { ops := [.member .load m.name none] })) ∧
      ∀ name, stripSigil? '*' m.name = some name → name ≠ "" →
        r.lookup ("." ++ m.name) here = .ok (some { ops := [.member .addr name none] }) := by
  refine ⟨fun t rest w shape e r' _ hnext he => ⟨fun hload => ?_, fun hvariable hsigil here => ?_⟩,
    fun d hd m hm here => ⟨?_, fun hstar => ?_, fun name hstar hne => ?_⟩⟩
  · obtain ⟨used, hdeclare⟩ := hnext.declareShape
    obtain ⟨m, hfinds⟩ := Resolution.declareShape_finds hnext.unknown he hload hdeclare
    refine ⟨⟨m, hfinds⟩, fun current hvisible hbound => ?_⟩
    exact Resolution.refuses_of_lookup (hfinds.found current hvisible hbound) hfinds.declared
  · obtain ⟨used, hdeclare⟩ := hnext.declareShape
    exact Resolution.lookup_of_sigil hnext.unknown hvariable hsigil hdeclare here
  · have hne := hr.memberNames (TokenStream.word_ne_empty hs) d hd m hm
    exact hr.lookup_member (memberWord?_star (stripSigil?_append '*' m.name) hne) here
  · have hne := hr.memberNames (TokenStream.word_ne_empty hs) d hd m hm
    exact hr.lookup_member (memberWord?_load hne hstar) here
  · exact hr.lookup_member (memberWord?_star hstar hne) here

namespace Resolution

/-- The word that is declared next, what it declares, and the state behind that. -/
def next? (eof : Location) (r : Resolution) : List Token → Option (String × Shape × Resolution)
  | ⟨.word w, loc⟩ :: rest =>
    match r.lookup w loc, Shape.classify r.symbols w loc eof rest,
      r.step eof ⟨.word w, loc⟩ rest with
    | .ok none, .ok shape, .ok (r', _) => some (w, shape, r')
    | _, _, _ => none
  | _ => none

theorem exists_of_next? {eof : Location} {r r' : Resolution} {ts : List Token} {w : String}
    {shape : Shape} (h : r.next? eof ts = some (w, shape, r')) :
    ∃ t rest, ts = t :: rest ∧ r.DeclaresNext eof t rest w shape r' := by
  unfold next? at h
  split at h
  · split at h
    · rename_i hlookup hshape hstep
      cases h
      exact ⟨_, _, rfl, rfl, hlookup, hshape, _, hstep⟩
    · cases h
  · cases h

/-- A declaration in a text, found by counting steps. -/
theorem exists_declaration {x : Except Fault TokenStream} (n : Nat)
    {P : TokenStream → Resolution → String → Shape → Resolution → Prop}
    [∀ s r w shape r', Decidable (P s r w shape r')]
    (h : (x.toOption.bind fun s => (advance s.eof n {} s.tokens).toOption.bind fun p =>
      (p.1.next? s.eof p.2).map fun q => decide (P s p.1 q.1 q.2.1 q.2.2)) = some true) :
    ∃ s r t rest w shape r', x = .ok s ∧ Reaches s.eof {} s.tokens r (t :: rest) ∧
      r.DeclaresNext s.eof t rest w shape r' ∧ P s r w shape r' := by
  obtain ⟨s, hs, h⟩ := Option.bind_eq_some_iff.mp h
  obtain ⟨p, hp, h⟩ := Option.bind_eq_some_iff.mp h
  obtain ⟨⟨w, shape, r'⟩, hq, hP⟩ := Option.map_eq_some_iff.mp h
  obtain ⟨t, rest, hts, hnext⟩ := exists_of_next? hq
  have hreaches := Reaches.start.advance (toOption_eq_some.mp hp)
  rw [hts] at hreaches
  exact ⟨s, p.1, t, rest, w, shape, r', toOption_eq_some.mp hs, hreaches, hnext,
    of_decide_eq_true hP⟩

end Resolution

def usedText : String :=
  "S struct a int *b int end f :: p : S 1 2 end p drop drop end"

theorem used_struct_variable_is_found :
    ∃ s r t rest shape r' m, TokenStream.ofSource "used" usedText = .ok s ∧
      Resolution.Reaches s.eof {} s.tokens r (t :: rest) ∧
      r.DeclaresNext s.eof t rest "p" shape r' ∧
      m.ops = [.loadVar ⟨.frame 0, 0⟩ .int, .loadVar ⟨.frame 0, 1⟩ .int] ∧
      r'.lookup "p" s.eof = .ok (some m) ∧ Resolution.Refuses s.eof r' "p" t.loc ∧
      r.lookup ".a" s.eof = .ok (some { ops := [.member .load "a" none] }) ∧
      r.lookup ".**b" s.eof = .ok (some { ops := [.member .addr "*b" none] }) := by
  obtain ⟨s, r, t, rest, w, shape, r', hs, hr, hnext, hP⟩ :=
    Resolution.exists_declaration (x := TokenStream.ofSource "used" usedText)
      (P := fun s r w shape r' => (w, shape.entity? r,
        (r'.symbols.entity? (.structVar (.frame 0) 0)).map (·.2.ops),
        r.symbols.structs.map fun d => d.members.map (·.name)) =
      ("p", some (.structVar (.frame 0) 0),
        some [.loadVar ⟨.frame 0, 0⟩ .int, .loadVar ⟨.frame 0, 1⟩ .int], [["a", "*b"]]))
      2 (by decide +kernel)
  simp only [Prod.mk.injEq] at hP
  obtain ⟨rfl, he, hops, hstructs⟩ := hP
  obtain ⟨d, hd, hnames⟩ := List.mem_map.mp (hstructs ▸ List.mem_cons_self)
  have hall := declared_words_are_found hs hr
  obtain ⟨⟨found, hfinds⟩, hrefuses⟩ := (hall.1 t rest _ shape _ r' rfl hnext he).1 fun _ => rfl
  refine ⟨s, r, t, rest, shape, r', found, hs, hr, hnext, ?_,
    hfinds.found r'.current hfinds.visible hfinds.unbound s.eof,
    hrefuses r'.current hfinds.visible hfinds.unbound, ?_, ?_⟩
  · rw [hfinds.entry] at hops
    exact Option.some.inj hops
  · obtain ⟨m, hm, hname⟩ := List.mem_map.mp (hnames ▸ List.mem_cons_self)
    have hload := (hall.2 d hd m hm s.eof).2.1
    rw [hname] at hload
    exact hload rfl
  · obtain ⟨m, hm, hname⟩ := List.mem_map.mp (hnames ▸ List.mem_cons_of_mem _ List.mem_cons_self)
    have haddr := (hall.2 d hd m hm s.eof).1
    rwa [hname] at haddr

def sigilText : String :=
  "!x int 1 end\n!x int 2 end"

def starText : String :=
  "S struct *y int end"

/-- A variable with a sigil at the front of its name has no meaning behind its declaration, and the
text that declares it again resolves. The word with a dot and the name of a member that starts with
a star asks for the address of another member. -/
theorem names_with_sigils_are_not_found :
    (∃ s r t rest w shape r', TokenStream.ofSource "sigil" sigilText = .ok s ∧
      Resolution.Reaches s.eof {} s.tokens r (t :: rest) ∧
      r.DeclaresNext s.eof t rest w shape r' ∧ (Program.ofTokens s).toOption.isSome ∧
      (r'.lookup w s.eof).toOption = some none) ∧
    ∃ s r rest r' rest', TokenStream.ofSource "star" starText = .ok s ∧
      Resolution.Reaches s.eof {} s.tokens r rest ∧ Resolution.Reaches s.eof r rest r' rest' ∧
      ∃ d ∈ r'.symbols.structs, ∃ m ∈ d.members, m.name = "*y" ∧
        ((r'.lookup ("." ++ m.name) s.eof).toOption.join).map (·.ops) =
          some [.member .addr "y" none] :=
  ⟨Resolution.exists_declaration 0 (by decide +kernel),
    Resolution.exists_points 0 1 (by decide +kernel)⟩

end StackEffect
