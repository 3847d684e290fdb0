import StackEffect.Symbols

/-! # Tables that refer to each other

All types in the tables name structs that are declared, and the members of struct variables are
variables of the same scope, that of the globals or the frame of a procedure. Tables only grow, so
what can be referred to stays there.
-/

namespace StackEffect

/-- A type that a value may have when `count` structs are declared. -/
def Ty.Declared (count : Nat) : Ty → Prop
  | struct id => id < count
  | int | bool | ptr => True
  | any => False

theorem Ty.Declared.mono {m n : Nat} {ty : Ty} (h : ty.Declared m) (hmn : m ≤ n) :
    ty.Declared n := by
  cases ty with
  | struct id => exact Nat.lt_of_lt_of_le h hmn
  | int | bool | ptr => trivial
  | any => exact h.elim

namespace Named

variable {α : Type} [Named α] {wanted : String} {l : List α} {i : Nat} {a : α}

theorem getElem?_of_first? (h : first? wanted l = some (i, a)) : l[i]? = some a := by
  induction l generalizing i with
  | nil => cases h
  | cons b l ih =>
    unfold first? at h
    split at h
    · cases h
      rfl
    · obtain ⟨⟨j, c⟩, hfound, heq⟩ := Option.map_eq_some_iff.mp h
      cases heq
      exact ih hfound

theorem getElem?_of_last? (h : last? wanted l = some (i, a)) : l[i]? = some a := by
  induction l generalizing i with
  | nil => cases h
  | cons b l ih =>
    unfold last? at h
    split at h
    · rename_i found hfound
      cases h
      exact ih hfound
    · split at h
      · cases h
        rfl
      · cases h

theorem name_of_first? (h : first? wanted l = some (i, a)) : name a = wanted := by
  induction l generalizing i with
  | nil => cases h
  | cons b l ih =>
    unfold first? at h
    split at h
    · cases h
      assumption
    · obtain ⟨found, hfound, heq⟩ := Option.map_eq_some_iff.mp h
      cases heq
      exact ih hfound

theorem name_of_last? (h : last? wanted l = some (i, a)) : name a = wanted := by
  induction l generalizing i with
  | nil => cases h
  | cons b l ih =>
    unfold last? at h
    split at h
    · rename_i found hfound
      cases h
      exact ih hfound
    · split at h
      · rename_i hname
        cases h
        exact hname
      · cases h

end Named

/-- The members of a struct variable are among the first `slots` variables. -/
structure Aggregate.InRange (count slots : Nat) (v : Aggregate) : Prop where
  struct : v.struct < count
  members : ∀ i ∈ v.members, i < slots

theorem Aggregate.InRange.mono {count count' slots slots' : Nat} {v : Aggregate}
    (h : v.InRange count slots) (hcount : count ≤ count') (hslots : slots ≤ slots') :
    v.InRange count' slots' where
  struct := Nat.lt_of_lt_of_le h.struct hcount
  members i hi := Nat.lt_of_lt_of_le (h.members i hi) hslots

structure Procedure.WellFormed (count : Nat) (p : Procedure) : Prop where
  ins : ∀ ty ∈ p.ins, ty.Declared count
  outs : ∀ ty ∈ p.outs, ty.Declared count
  locals : ∀ v ∈ p.locals, v.value.ty.Declared count
  localStructs : ∀ v ∈ p.localStructs, v.InRange count p.locals.length

theorem Procedure.WellFormed.mono {m n : Nat} {p : Procedure} (h : p.WellFormed m) (hmn : m ≤ n) :
    p.WellFormed n where
  ins ty hty := (h.ins ty hty).mono hmn
  outs ty hty := (h.outs ty hty).mono hmn
  locals v hv := (h.locals v hv).mono hmn
  localStructs v hv := (h.localStructs v hv).mono hmn (Nat.le_refl _)

namespace Symbols

structure WellFormed (s : Symbols) : Prop where
  structs : ∀ d ∈ s.structs, ∀ m ∈ d.members, m.ty.Declared s.structs.length
  consts : ∀ c ∈ s.consts, c.value.ty.Declared s.structs.length
  globals : ∀ v ∈ s.globals, v.value.ty.Declared s.structs.length
  globalStructs : ∀ v ∈ s.globalStructs, v.InRange s.structs.length s.globals.length
  procs : ∀ p ∈ s.procs, p.WellFormed s.structs.length

def vars (s : Symbols) : Scope → List Scalar
  | .global => s.globals
  | .frame p => (s.procs[p]?).elim [] (·.locals)

def structVars (s : Symbols) : Scope → List Aggregate
  | .global => s.globalStructs
  | .frame p => (s.procs[p]?).elim [] (·.localStructs)

def regions (s : Symbols) : Scope → List Region
  | .global => s.memory.regions
  | .frame p => (s.procs[p]?).elim [] (·.memory.regions)

theorem var?_eq (s : Symbols) (ref : Ref) : s.var? ref = (s.vars ref.scope)[ref.index]? := by
  obtain ⟨scope, i⟩ := ref
  cases scope with
  | global => rfl
  | frame p => cases hp : s.procs[p]? <;> simp [var?, vars, hp]

/-- The variables of a scope have types that are declared. -/
theorem WellFormed.vars {s : Symbols} (h : s.WellFormed) (scope : Scope) :
    ∀ v ∈ s.vars scope, v.value.ty.Declared s.structs.length := by
  cases scope with
  | global => exact h.globals
  | frame id =>
    cases hp : s.procs[id]? with
    | none => simp [Symbols.vars, hp]
    | some p => simpa [Symbols.vars, hp] using (h.procs p (List.mem_of_getElem? hp)).locals

/-- The struct variables of a scope have their members there. -/
theorem WellFormed.structVars {s : Symbols} (h : s.WellFormed) (scope : Scope) :
    ∀ v ∈ s.structVars scope, v.InRange s.structs.length (s.vars scope).length := by
  cases scope with
  | global => exact h.globalStructs
  | frame id =>
    cases hp : s.procs[id]? with
    | none => simp [Symbols.structVars, hp]
    | some p =>
      simpa [Symbols.structVars, Symbols.vars, hp] using
        (h.procs p (List.mem_of_getElem? hp)).localStructs

/-- What could be referred to in one state of the tables can be in another. -/
structure Grows (s t : Symbols) : Prop where
  structs : s.structs.length ≤ t.structs.length
  procs : s.procs.length ≤ t.procs.length
  vars : ∀ ref, (s.var? ref).isSome → (t.var? ref).isSome

theorem Grows.refl (s : Symbols) : s.Grows s :=
  ⟨Nat.le_refl _, Nat.le_refl _, fun _ h => h⟩

theorem Grows.trans {s t u : Symbols} (h : s.Grows t) (h' : t.Grows u) : s.Grows u where
  structs := Nat.le_trans h.structs h'.structs
  procs := Nat.le_trans h.procs h'.procs
  vars ref href := h'.vars ref (h.vars ref href)

/-- Tables that keep their variables and procedures, or append to them, have grown. -/
theorem Grows.of_append {s t : Symbols} (hstructs : s.structs.length ≤ t.structs.length)
    {vs : List Scalar} (hglobals : t.globals = s.globals ++ vs) {ps : List Procedure}
    (hprocs : t.procs = s.procs ++ ps) : s.Grows t where
  structs := hstructs
  procs := by simp [hprocs]
  vars ref href := by
    obtain ⟨scope, i⟩ := ref
    cases scope with
    | global =>
      have hi : i < s.globals.length := by simpa [var?] using href
      have hi' : i < s.globals.length + vs.length := by omega
      simpa [var?, hglobals] using hi'
    | frame id =>
      simp only [var?, Option.isSome_bind] at href ⊢
      cases hp : s.procs[id]? with
      | none => simp [hp] at href
      | some p =>
        have hlt : id < s.procs.length := (List.getElem?_eq_some_iff.mp hp).1
        rw [hprocs, List.getElem?_append_left hlt]
        exact href

variable {s : Symbols} {id : Nat} {p p' : Procedure}

/-- A procedure may be replaced by one with more local variables. -/
theorem modifyProc_grows (hp : s.procs[id]? = some p)
    (hlocals : p.locals.length ≤ p'.locals.length) :
    s.Grows (s.modifyProc id fun _ => p') where
  structs := Nat.le_refl _
  procs := by simp [modifyProc]
  vars ref href := by
    obtain ⟨scope, i⟩ := ref
    cases scope with
    | global => exact href
    | frame q =>
      by_cases hq : id = q
      · subst hq
        have hi : i < p.locals.length := by simpa [var?, hp] using href
        simpa [var?, modifyProc, hp] using Nat.lt_of_lt_of_le hi hlocals
      · simpa [var?, modifyProc, List.getElem?_modify, hq] using href

/-- What holds of every procedure and of one that takes the place of another still holds of all. -/
theorem forall_modifyProc {P : Procedure → Prop} (h : ∀ q ∈ s.procs, P q) (hp : P p') :
    ∀ q ∈ (s.modifyProc id fun _ => p').procs, P q := by
  intro q hq
  obtain ⟨j, hj⟩ := List.getElem?_of_mem hq
  by_cases hid : id = j
  · obtain ⟨q', _, rfl⟩ : ∃ q', s.procs[j]? = some q' ∧ p' = q := by
      simpa [modifyProc, List.getElem?_modify, hid] using hj
    exact hp
  · have hmem : s.procs[j]? = some q := by
      simpa [modifyProc, List.getElem?_modify, hid] using hj
    exact h q (List.mem_of_getElem? hmem)

theorem WellFormed.modifyProc (h : s.WellFormed) (hp : p'.WellFormed s.structs.length) :
    (s.modifyProc id fun _ => p').WellFormed where
  structs := h.structs
  consts := h.consts
  globals := h.globals
  globalStructs := h.globalStructs
  procs := forall_modifyProc h.procs hp

theorem WellFormed.addStruct (h : s.WellFormed) {d : StructDef}
    (hd : ∀ m ∈ d.members, m.ty.Declared s.structs.length) : (s.addStruct d).2.WellFormed := by
  have hle : s.structs.length ≤ (s.structs ++ [d]).length := by simp
  refine ⟨fun d' hd' m hm => ?_, fun c hc => (h.consts c hc).mono hle,
    fun v hv => (h.globals v hv).mono hle,
    fun v hv => (h.globalStructs v hv).mono hle (Nat.le_refl _),
    fun p hp => (h.procs p hp).mono hle⟩
  rcases List.mem_append.mp hd' with hd' | hd'
  · exact (h.structs d' hd' m hm).mono hle
  · rw [List.mem_singleton.mp hd'] at hm
    exact (hd m hm).mono hle

theorem WellFormed.addConst (h : s.WellFormed) {c : Scalar}
    (hc : c.value.ty.Declared s.structs.length) : (s.addConst c).2.WellFormed where
  structs := h.structs
  consts := by simpa [Symbols.addConst, or_imp, forall_and] using ⟨h.consts, hc⟩
  globals := h.globals
  globalStructs := h.globalStructs
  procs := h.procs

theorem WellFormed.addGlobal (h : s.WellFormed) {v : Scalar}
    (hv : v.value.ty.Declared s.structs.length) : (s.addGlobal v).2.WellFormed where
  structs := h.structs
  consts := h.consts
  globals := by simpa [Symbols.addGlobal, or_imp, forall_and] using ⟨h.globals, hv⟩
  globalStructs v hv := (h.globalStructs v hv).mono (Nat.le_refl _) (by simp [Symbols.addGlobal])
  procs := h.procs

theorem WellFormed.addGlobalStruct (h : s.WellFormed) {v : Aggregate}
    (hv : v.InRange s.structs.length s.globals.length) : (s.addGlobalStruct v).2.WellFormed where
  structs := h.structs
  consts := h.consts
  globals := h.globals
  globalStructs := by
    simpa [Symbols.addGlobalStruct, or_imp, forall_and] using ⟨h.globalStructs, hv⟩
  procs := h.procs

theorem WellFormed.addProc (h : s.WellFormed) (hp : p.WellFormed s.structs.length) :
    (s.addProc p).2.WellFormed where
  structs := h.structs
  consts := h.consts
  globals := h.globals
  globalStructs := h.globalStructs
  procs := by simpa [Symbols.addProc, or_imp, forall_and] using ⟨h.procs, hp⟩

end Symbols

namespace Procedure.WellFormed

variable {count : Nat} {p : Procedure}

theorem addLocal (h : p.WellFormed count) {v : Scalar} (hv : v.value.ty.Declared count) :
    (p.addLocal v).2.WellFormed count where
  ins := h.ins
  outs := h.outs
  locals := by simpa [Procedure.addLocal, or_imp, forall_and] using ⟨h.locals, hv⟩
  localStructs v hv := (h.localStructs v hv).mono (Nat.le_refl _) (by simp [Procedure.addLocal])

theorem addLocalStruct (h : p.WellFormed count) {v : Aggregate}
    (hv : v.InRange count p.locals.length) : (p.addLocalStruct v).2.WellFormed count where
  ins := h.ins
  outs := h.outs
  locals := h.locals
  localStructs := by simpa [Procedure.addLocalStruct, or_imp, forall_and] using ⟨h.localStructs, hv⟩

end Procedure.WellFormed

end StackEffect
