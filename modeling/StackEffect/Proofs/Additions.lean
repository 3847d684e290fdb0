import StackEffect.Proofs.Steps

/-! # What declarations add

A declaration puts entries behind those that the tables hold. Which ones is said once, in
`Resolution.Declares`: a struct with its members, a constant or variable, or the scalars that stand
for the members of a struct together with the entry that lists them. Inside a procedure, variables
and memory go to its own tables.
-/

namespace StackEffect

namespace Named

variable {α : Type} [Named α] {wanted : String} {l : List α}

theorem first?_eq_none : first? wanted l = none ↔ ∀ a ∈ l, name a ≠ wanted := by
  induction l with
  | nil => simp [first?]
  | cons a l ih =>
    unfold first?
    split
    · rename_i hname
      simp [hname]
    · rename_i hname
      simp [ih, hname]

theorem last?_eq_none : last? wanted l = none ↔ ∀ a ∈ l, name a ≠ wanted := by
  induction l with
  | nil => simp [last?]
  | cons a l ih =>
    unfold last?
    split
    · rename_i found hfound
      have hsome : ¬ ∀ b ∈ l, name b ≠ wanted := by
        rw [← ih, hfound]
        simp
      simp only [reduceCtorEq, List.forall_mem_cons, false_iff, not_and]
      exact fun _ => hsome
    · rename_i hnone
      have hother := ih.mp hnone
      simpa using fun _ => hother

end Named

/-- A struct that may be declared behind `id` others. Its members have different names, their types
are declared before it, and their defaults are of these types. -/
structure StructDef.Regular (id : Nat) (d : StructDef) : Prop where
  nonempty : d.members ≠ []
  names : (d.members.map (·.name)).Nodup
  types : ∀ m ∈ d.members, m.ty.Declared id
  defaults : ∀ m ∈ d.members, m.initial.ty = m.ty

/-- The members read so far have different names and defaults of their types. -/
structure RegularMembers (members : List Member) : Prop where
  names : (members.map (·.name)).Nodup
  defaults : ∀ m ∈ members, m.initial.ty = m.ty

theorem RegularMembers.snoc {members : List Member} (h : RegularMembers members) {name : String}
    (hnew : (Named.first? name members).isSome = false) (ty : Ty) (bits : Int64) :
    RegularMembers (members ++ [⟨name, ty, ⟨bits, ty⟩⟩]) where
  names := by
    have hother : ∀ m ∈ members, m.name ≠ name :=
      Named.first?_eq_none.mp (by simpa using hnew)
    rw [List.map_append, List.nodup_append]
    refine ⟨h.names, by simp, ?_⟩
    intro a ha b hb
    obtain ⟨m, hm, rfl⟩ := List.mem_map.mp ha
    rw [List.mem_singleton.mp hb]
    exact hother m hm
  defaults := List.forall_mem_append.mpr ⟨h.defaults, by simp⟩

theorem RegularMembers.of_structMembers {sym : Symbols} {name : String} {loc eof : Location}
    {members found : List Member} {count used : Nat} {ts : List Token}
    (hmembers : RegularMembers members)
    (h : structMembers sym name loc eof members count ts = .ok (found, used)) :
    RegularMembers found := by
  fun_induction structMembers sym name loc eof members count ts with
  | case2 =>
    cases h
    exact hmembers
  | case6 _ _ _ _ _ hnew _ ty _ _ ih => exact ih (hmembers.snoc (by simpa using hnew) ty 0) h
  | case7 _ _ _ _ _ hnew _ ty _ _ _ _ _ ih => exact ih (hmembers.snoc (by simpa using hnew) ty 0) h
  | case8 _ _ _ _ _ hnew _ ty _ _ _ v _ _ _ ih =>
    exact ih (hmembers.snoc (by simpa using hnew) ty v.bits) h
  | case1 | case3 | case4 | case5 | case9 | case10 => cases h

/-- Where values are expected, all values of the initializer are given. -/
theorem Folded.expect_eq_some {f : Folded} {count : Nat} {mayElide : Bool} {what : String}
    {loc : Location} {given : List Value}
    (h : f.expect count mayElide what loc = .ok (some given)) :
    given = f.values ∧ given.length = count := by
  unfold expect at h
  split at h
  · cases h
  · obtain ⟨vs, hvs, heq⟩ := map_eq_ok h
    cases heq
    unfold require at hvs
    split at hvs
    · cases hvs
    · split at hvs
      · rename_i hlen
        cases hvs
        exact ⟨rfl, hlen⟩
      · cases hvs

/-- There is a value for each member. -/
theorem Symbols.length_memberValues {sym : Symbols} {d : StructDef} {folded : Folded}
    {mayElide : Bool} {what : String} {loc : Location} {values : List Value}
    (h : sym.memberValues d folded mayElide what loc = .ok values) :
    values.length = d.members.length := by
  obtain ⟨found, hfound, h⟩ := bind_eq_ok h
  cases found with
  | none =>
    cases h
    simp
  | some given =>
    obtain ⟨_, hgiven⟩ := Folded.expect_eq_some hfound
    rw [length_of_mapM h, List.length_zip, hgiven, Nat.min_self]

/-- There is a scalar for each member. -/
theorem StructDef.length_scalars {d : StructDef} {values : List Value}
    (hvalues : values.length = d.members.length) (owner : String) (loc : Location) :
    (d.scalars owner values loc).length = d.members.length := by
  simp [scalars, hvalues]

namespace Resolution

/-- What the declaration of a name adds to the tables. -/
inductive Declares (r : Resolution) (name : String) (loc : Location) : Resolution → Prop
  | struct {members : List Member} (htop : r.procedure? = none)
      (hmembers : (⟨name, members, loc⟩ : StructDef).Regular r.symbols.structs.length) :
      Declares r name loc { r with symbols := (r.symbols.addStruct ⟨name, members, loc⟩).2 }
  | const {value : Value} (hty : value.ty.Declared r.symbols.structs.length) :
      Declares r name loc { r with symbols := (r.symbols.addConst ⟨name, value, loc⟩).2 }
  | structConst {id : Nat} {d : StructDef} {values : List Value}
      (hd : r.symbols.structs[id]? = some d) (hvalues : values.length = d.members.length) :
      Declares r name loc { r with symbols := { r.symbols with
        consts := r.symbols.consts ++ d.scalars name values loc
        structConsts := r.symbols.structConsts ++
          [⟨name, id, List.range' r.symbols.consts.length d.members.length, loc⟩] } }
  | var {value : Value} (htop : r.procedure? = none)
      (hty : value.ty.Declared r.symbols.structs.length) :
      Declares r name loc { r with symbols := (r.symbols.addGlobal ⟨name, value, loc⟩).2 }
  | structVar {id : Nat} {d : StructDef} {values : List Value} (htop : r.procedure? = none)
      (hd : r.symbols.structs[id]? = some d) (hvalues : values.length = d.members.length) :
      Declares r name loc { r with symbols := { r.symbols with
        globals := r.symbols.globals ++ d.scalars name values loc
        globalStructs := r.symbols.globalStructs ++
          [⟨name, id, List.range' r.symbols.globals.length d.members.length, loc⟩] } }
  | memory {size : Nat} {m : Memory} (htop : r.procedure? = none)
      (hm : r.symbols.memory.reserve? name size loc = some m) :
      Declares r name loc { r with symbols := { r.symbols with memory := m } }
  | localVar {pid : Nat} {p : Procedure} {value : Value} (hproc : r.procedure? = some (pid, p))
      (hty : value.ty.Declared r.symbols.structs.length) :
      Declares r name loc (r.setProcedure pid (p.addLocal ⟨name, value, loc⟩).2)
  | localStructVar {pid id : Nat} {p : Procedure} {d : StructDef} {values : List Value}
      (hproc : r.procedure? = some (pid, p)) (hd : r.symbols.structs[id]? = some d)
      (hvalues : values.length = d.members.length) :
      Declares r name loc (r.setProcedure pid { p with
        locals := p.locals ++ d.scalars name values loc
        localStructs := p.localStructs ++
          [⟨name, id, List.range' p.locals.length d.members.length, loc⟩] })
  | localMemory {pid size : Nat} {p : Procedure} {m : Memory}
      (hproc : r.procedure? = some (pid, p)) (hm : p.memory.reserve? name size loc = some m) :
      Declares r name loc (r.setProcedure pid { p with memory := m })

variable {r r' : Resolution} {id : Nat} {p : Procedure}

theorem setProcedure_self (hp : r.symbols.procs[id]? = some p) : r.setProcedure id p = r := by
  have hsame : r.symbols.procs.modify id (fun _ => p) = r.symbols.procs := by
    ext j : 1
    rw [List.getElem?_modify]
    by_cases hj : id = j
    · subst hj
      simp [hp]
    · simp [hj]
  simp [setProcedure, Symbols.modifyProc, hsame]

theorem setProcedure_setProcedure (r : Resolution) (id : Nat) (p q : Procedure) :
    (r.setProcedure id p).setProcedure id q = r.setProcedure id q := by
  have hlast : (r.symbols.procs.modify id fun _ => p).modify id (fun _ => q) =
      r.symbols.procs.modify id fun _ => q := by
    ext j : 1
    simp only [List.getElem?_modify]
    by_cases hj : id = j <;> simp [hj, Function.comp_def]
  simp [setProcedure, Symbols.modifyProc, hlast]

theorem procedure?_setProcedure (hproc : r.procedure? = some (id, p)) (q : Procedure) :
    (r.setProcedure id q).procedure? = some (id, q) := by
  obtain ⟨hid, hp⟩ := procedure?_eq_some.mp hproc
  exact procedure?_eq_some.mpr ⟨hid, by simp [setProcedure, Symbols.modifyProc, hp]⟩

/-- Constants are added one behind the other. -/
theorem addConsts_eq (r : Resolution) (cs : List Scalar) :
    r.addConsts cs = (List.range' r.symbols.consts.length cs.length,
      { r with symbols := { r.symbols with consts := r.symbols.consts ++ cs } }) := by
  induction cs generalizing r with
  | nil => simp [addConsts]
  | cons c cs ih => simp [addConsts, Symbols.addConst, ih, List.range'_succ]

/-- At top level variables are added one behind the other to the globals. -/
theorem addVars_eq_globals (htop : r.procedure? = none) (vs : List Scalar) :
    r.addVars vs = (List.range' r.symbols.globals.length vs.length,
      { r with symbols := { r.symbols with globals := r.symbols.globals ++ vs } }) := by
  induction vs generalizing r with
  | nil => simp [addVars]
  | cons v vs ih =>
    have hnext : r.addVar v = (r.symbols.globals.length,
        { r with symbols := (r.symbols.addGlobal v).2 }) := by
      simp [addVar, htop, Symbols.addGlobal]
    have hstill : procedure? { r with symbols := (r.symbols.addGlobal v).2 } = none := htop
    simp only [addVars, hnext, ih hstill]
    simp [Symbols.addGlobal, List.range'_succ]

/-- Inside a procedure variables are added one behind the other to its own. -/
theorem addVars_eq_locals (hproc : r.procedure? = some (id, p)) (vs : List Scalar) :
    r.addVars vs = (List.range' p.locals.length vs.length,
      r.setProcedure id { p with locals := p.locals ++ vs }) := by
  induction vs generalizing r p with
  | nil => simp [addVars, setProcedure_self (procedure?_eq_some.mp hproc).2]
  | cons v vs ih =>
    have hnext : r.addVar v = (p.locals.length, r.setProcedure id (p.addLocal v).2) := by
      simp [addVar, hproc, Procedure.addLocal]
    have hthere := procedure?_setProcedure hproc (p.addLocal v).2
    simp only [addVars, hnext, ih hthere, setProcedure_setProcedure]
    simp [Procedure.addLocal, List.range'_succ]

variable {eof loc : Location} {name : String} {rest : List Token} {used : Nat}

theorem addVar_declares {value : Value} (hty : value.ty.Declared r.symbols.structs.length) :
    Declares r name loc (r.addVar ⟨name, value, loc⟩).2 := by
  cases hproc : r.procedure? with
  | none =>
    simp only [addVar, hproc]
    exact .var hproc hty
  | some found =>
    simp only [addVar, hproc]
    exact .localVar hproc hty

theorem addConst_declares {value : Value} (hty : value.ty.Declared r.symbols.structs.length) :
    Declares r name loc (r.addConsts [⟨name, value, loc⟩]).2 := by
  rw [addConsts_eq]
  exact .const hty

/-- An initializer behind some tokens gives these values for the members of a struct. -/
def FoldsMembers (r : Resolution) (eof : Location) (rest : List Token) (skip : Nat) (d : StructDef)
    (mayElide : Bool) (what : String) (loc : Location) (values : List Value) : Prop :=
  ∃ folded, r.fold eof rest skip = .ok folded ∧
    r.symbols.memberValues d folded mayElide what loc = .ok values

theorem FoldsMembers.length_eq {skip : Nat} {d : StructDef} {mayElide : Bool} {what : String}
    {values : List Value} (h : r.FoldsMembers eof rest skip d mayElide what loc values) :
    values.length = d.members.length := by
  obtain ⟨folded, _, hvalues⟩ := h
  exact Symbols.length_memberValues hvalues

/-- At top level the slots of a struct variable and the entry that lists them are global. -/
theorem declareStructVar_eq_globals {d : StructDef} (htop : r.procedure? = none)
    (hr : r.declareStructVar eof name loc rest id d = .ok (r', used)) :
    ∃ values, r.FoldsMembers eof rest 2 d true s!"variable `{name}`" loc values ∧
      r' = { r with symbols := { r.symbols with
        globals := r.symbols.globals ++ d.scalars name values loc
        globalStructs := r.symbols.globalStructs ++
          [⟨name, id, List.range' r.symbols.globals.length d.members.length, loc⟩] } } := by
  obtain ⟨folded, values, hfolded, hvalues, rfl, _⟩ := declareStructVar_eq_ok hr
  have hlength := Symbols.length_memberValues hvalues
  have hstill : procedure? { r with symbols := { r.symbols with
      globals := r.symbols.globals ++ d.scalars name values loc } } = none := htop
  refine ⟨values, ⟨folded, hfolded, hvalues⟩, ?_⟩
  rw [addVars_eq_globals htop, StructDef.length_scalars hlength, addStructVar, hstill]
  rfl

/-- Inside a procedure the slots of a struct variable and the entry that lists them are its own. -/
theorem declareStructVar_eq_locals {d : StructDef} {pid : Nat}
    (hproc : r.procedure? = some (pid, p))
    (hr : r.declareStructVar eof name loc rest id d = .ok (r', used)) :
    ∃ values, r.FoldsMembers eof rest 2 d true s!"variable `{name}`" loc values ∧
      r' = r.setProcedure pid { p with
        locals := p.locals ++ d.scalars name values loc
        localStructs := p.localStructs ++
          [⟨name, id, List.range' p.locals.length d.members.length, loc⟩] } := by
  obtain ⟨folded, values, hfolded, hvalues, rfl, _⟩ := declareStructVar_eq_ok hr
  have hlength := Symbols.length_memberValues hvalues
  refine ⟨values, ⟨folded, hfolded, hvalues⟩, ?_⟩
  rw [addVars_eq_locals hproc, StructDef.length_scalars hlength]
  simp only [addStructVar, procedure?_setProcedure hproc, setProcedure_setProcedure]
  rfl

theorem declareStructVar_declares {d : StructDef} (hd : r.symbols.structs[id]? = some d)
    (hr : r.declareStructVar eof name loc rest id d = .ok (r', used)) :
    Declares r name loc r' := by
  cases hproc : r.procedure? with
  | none =>
    obtain ⟨values, hvalues, rfl⟩ := declareStructVar_eq_globals hproc hr
    exact .structVar hproc hd hvalues.length_eq
  | some found =>
    obtain ⟨values, hvalues, rfl⟩ := declareStructVar_eq_locals hproc hr
    exact .localStructVar hproc hd hvalues.length_eq

theorem declareStructConst_eq {d : StructDef}
    (hr : r.declareStructConst eof name loc rest id d = .ok (r', used)) :
    ∃ values, r.FoldsMembers eof rest 4 d false s!"constant `{name}`" loc values ∧
      r' = { r with symbols := { r.symbols with
        consts := r.symbols.consts ++ d.scalars name values loc
        structConsts := r.symbols.structConsts ++
          [⟨name, id, List.range' r.symbols.consts.length d.members.length, loc⟩] } } := by
  obtain ⟨folded, values, hfolded, hvalues, rfl, _⟩ := declareStructConst_eq_ok hr
  have hlength := Symbols.length_memberValues hvalues
  refine ⟨values, ⟨folded, hfolded, hvalues⟩, ?_⟩
  rw [addConsts_eq, StructDef.length_scalars hlength]
  rfl

theorem declareStructConst_declares {d : StructDef} (hd : r.symbols.structs[id]? = some d)
    (hr : r.declareStructConst eof name loc rest id d = .ok (r', used)) :
    Declares r name loc r' := by
  obtain ⟨values, hvalues, rfl⟩ := declareStructConst_eq hr
  exact .structConst hd hvalues.length_eq

theorem addMemory?_declares {size : Nat} (hr : r.addMemory? name size loc = some r') :
    Declares r name loc r' := by
  unfold addMemory? at hr
  split at hr
  · rename_i hproc
    simp only [Procedure.addMemory?_eq, Option.map_map, Option.map_eq_some_iff] at hr
    obtain ⟨m, hm, rfl⟩ := hr
    exact .localMemory hproc hm
  · rename_i hproc
    simp only [Symbols.addMemory?, Option.map_map, Option.map_eq_some_iff] at hr
    obtain ⟨m, hm, rfl⟩ := hr
    exact .memory hproc hm

theorem declareMemory_declares (hr : r.declareMemory eof name loc rest = .ok (r', used)) :
    Declares r name loc r' := by
  obtain ⟨size, hmemory⟩ := addMemory?_of_declareMemory hr
  exact addMemory?_declares hmemory

theorem declareStruct_declares (hr : r.declareStruct eof name loc rest = .ok (r', used)) :
    Declares r name loc r' := by
  obtain ⟨htop, members, hmembers, hne, rfl⟩ := declareStruct_eq hr
  have hregular : RegularMembers members := .of_structMembers ⟨by simp, by simp⟩ hmembers
  exact .struct htop ⟨hne, hregular.names, declared_of_structMembers (by simp) hmembers,
    hregular.defaults⟩

/-- Every declaration but that of a procedure adds entries for its name. -/
theorem declareShape_declares {shape : Shape} (hshape : shape.Declared r.symbols)
    (hproc : shape ≠ .proc) (hr : r.declareShape eof name loc rest shape = .ok (r', used)) :
    Declares r name loc r' := by
  cases shape with
  | struct => exact declareStruct_declares hr
  | var ty =>
    obtain ⟨_, value, _, _, rfl, _⟩ := declareVar_eq_ok hr
    exact addVar_declares hshape
  | const ty =>
    obtain ⟨_, value, _, _, rfl, rfl, _⟩ := declareConst_eq_ok hr
    exact addConst_declares hshape
  | structVar id d => exact declareStructVar_declares hshape hr
  | structConst id d => exact declareStructConst_declares hshape hr
  | memory => exact declareMemory_declares hr
  | untyped value consumed =>
    cases hr
    exact addConst_declares hshape
  | proc => exact absurd rfl hproc

end Resolution

end StackEffect
