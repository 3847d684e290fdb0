import StackEffect.Proofs.Coherence

/-! # What scopes hold on to

What a scope holds, variables, struct variables and memory regions, keeps its number: declarations
put their entries behind those that are there, in the scope of the procedure whose body is being
read as well as in all others.
-/

namespace StackEffect

namespace Symbols

/-- Whatever an operation could refer to is still there. -/
structure Retains (s t : Symbols) : Prop where
  structs : s.structs <+: t.structs
  vars : ∀ scope, s.vars scope <+: t.vars scope
  structVars : ∀ scope, s.structVars scope <+: t.structVars scope
  regions : ∀ scope, s.regions scope <+: t.regions scope
  procs : s.procs.length ≤ t.procs.length

variable {s t : Symbols}

/-- Tables that grow and keep the procedures. -/
theorem Retains.of_procs (hprocs : t.procs = s.procs) (hstructs : s.structs <+: t.structs)
    (hglobals : s.globals <+: t.globals) (hglobalStructs : s.globalStructs <+: t.globalStructs)
    (hregions : s.memory.regions <+: t.memory.regions) : s.Retains t := by
  refine ⟨hstructs, fun scope => ?_, fun scope => ?_, fun scope => ?_, by simp [hprocs]⟩
  · cases scope with
    | global => exact hglobals
    | frame p => simp [Symbols.vars, hprocs]
  · cases scope with
    | global => exact hglobalStructs
    | frame p => simp [Symbols.structVars, hprocs]
  · cases scope with
    | global => exact hregions
    | frame p => simp [Symbols.regions, hprocs]

theorem Retains.refl (s : Symbols) : s.Retains s :=
  .of_procs rfl (List.prefix_refl _) (List.prefix_refl _) (List.prefix_refl _) (List.prefix_refl _)

theorem Retains.trans {u : Symbols} (h : s.Retains t) (h' : t.Retains u) : s.Retains u where
  structs := h.structs.trans h'.structs
  vars scope := (h.vars scope).trans (h'.vars scope)
  structVars scope := (h.structVars scope).trans (h'.structVars scope)
  regions scope := (h.regions scope).trans (h'.regions scope)
  procs := Nat.le_trans h.procs h'.procs

theorem elim_append_prefix {α : Type} (procs : List Procedure) (p : Procedure)
    (table : Procedure → List α) (id : Nat) :
    (procs[id]?).elim [] table <+: ((procs ++ [p])[id]?).elim [] table := by
  cases hq : procs[id]? with
  | none => exact List.nil_prefix
  | some q =>
    have hlt : id < procs.length := (List.getElem?_eq_some_iff.mp hq).1
    have hsame : (procs ++ [p])[id]? = some q := by rw [List.getElem?_append_left hlt, hq]
    simp [hsame]

theorem Retains.addProc (s : Symbols) (p : Procedure) : s.Retains (s.addProc p).2 := by
  refine ⟨List.prefix_refl _, fun scope => ?_, fun scope => ?_, fun scope => ?_,
    by simp [Symbols.addProc]⟩ <;>
  · cases scope with
    | global => exact List.prefix_refl _
    | frame id => exact elim_append_prefix s.procs p _ id

theorem elim_modify_prefix {α : Type} {procs : List Procedure} {id : Nat} {p p' : Procedure}
    (hp : procs[id]? = some p) {table : Procedure → List α} (htable : table p <+: table p')
    (q : Nat) :
    (procs[q]?).elim [] table <+: ((procs.modify id fun _ => p')[q]?).elim [] table := by
  by_cases hq : id = q
  · subst hq
    simpa [hp] using htable
  · simp [hq]

theorem Retains.modifyProc {id : Nat} {p p' : Procedure} (hp : s.procs[id]? = some p)
    (hlocals : p.locals <+: p'.locals) (hstructs : p.localStructs <+: p'.localStructs)
    (hregions : p.memory.regions <+: p'.memory.regions) :
    s.Retains (s.modifyProc id fun _ => p') := by
  refine ⟨List.prefix_refl _, fun scope => ?_, fun scope => ?_, fun scope => ?_,
    by simp [Symbols.modifyProc]⟩
  · cases scope with
    | global => exact List.prefix_refl _
    | frame q => exact elim_modify_prefix hp hlocals q
  · cases scope with
    | global => exact List.prefix_refl _
    | frame q => exact elim_modify_prefix hp hstructs q
  · cases scope with
    | global => exact List.prefix_refl _
    | frame q => exact elim_modify_prefix hp hregions q

theorem Retains.var? (h : s.Retains t) {ref : Ref} {v : Scalar} (hv : s.var? ref = some v) :
    t.var? ref = some v := by
  rw [var?_eq] at hv ⊢
  exact IsPrefix.entry_stays (h.vars ref.scope) hv

/-- Each struct variable of a scope has its entries there. -/
theorem Coherent.backed (h : s.Coherent) {scope : Scope} {v : Aggregate}
    (hv : v ∈ s.structVars scope) : v.Backed s.structs (s.vars scope) := by
  cases scope with
  | global => exact h.globalStructs v hv
  | frame id =>
    cases hp : s.procs[id]? with
    | none => simp [Symbols.structVars, hp] at hv
    | some p =>
      simp only [Symbols.structVars, Symbols.vars, hp, Option.elim_some] at hv ⊢
      exact h.localStructs p (List.mem_of_getElem? hp) v hv

end Symbols

/-- A region is put behind all others. -/
theorem Memory.regions_of_reserve? {m m' : Memory} {name : String} {size : Nat} {loc : Location}
    (h : m.reserve? name size loc = some m') :
    ∃ region, region.name = name ∧ region.loc = loc ∧ m'.regions = m.regions ++ [region] := by
  unfold Memory.reserve? at h
  split at h
  · cases h
  · split at h
    · cases h
      exact ⟨_, rfl, rfl, rfl⟩
    · cases h

theorem Memory.reserve?_regions {m m' : Memory} {name : String} {size : Nat} {loc : Location}
    (h : m.reserve? name size loc = some m') : m.regions <+: m'.regions := by
  obtain ⟨region, _, _, hregions⟩ := Memory.regions_of_reserve? h
  exact ⟨[region], hregions.symm⟩

namespace Aggregate.Backed

variable {structs : List StructDef} {table : List Scalar} {v : Aggregate} {d : StructDef} {i : Nat}

/-- The slot of a member has the type of the member. -/
theorem exists_of_mem_zip (h : v.Backed structs table) (hd : structs[v.struct]? = some d)
    {m : Member} (hm : (i, m) ∈ v.members.zip d.members) :
    ∃ s, table[i]? = some s ∧ s.value.ty = m.ty := by
  obtain ⟨d', first, hd', hmembers, hentries⟩ := h
  obtain rfl : d' = d := Option.some.inj (hd'.symm.trans hd)
  obtain ⟨k, hk⟩ := List.mem_iff_getElem?.mp hm
  obtain ⟨hslot, hmember⟩ := List.getElem?_zip_eq_some.mp hk
  obtain ⟨s, hs, _, hty⟩ := hentries k m hmember
  have hi : first + k = i := by
    rw [hmembers, List.getElem?_range' (List.getElem?_eq_some_iff.mp hmember).1] at hslot
    simpa using hslot
  exact ⟨s, hi ▸ hs, hty⟩

theorem exists_of_mem (h : v.Backed structs table) (hi : i ∈ v.members) :
    ∃ s, table[i]? = some s := by
  obtain ⟨d, first, hd, hmembers, hentries⟩ := h
  rw [hmembers, List.mem_range'_1] at hi
  have hlt : i - first < d.members.length := by omega
  obtain ⟨s, hs, _⟩ := hentries (i - first) _ (List.getElem?_eq_getElem hlt)
  rw [Nat.add_sub_cancel' hi.1] at hs
  exact ⟨s, hs⟩

theorem struct_lt (h : v.Backed structs table) : v.struct < structs.length := by
  obtain ⟨d, _, hd, _⟩ := h
  exact (List.getElem?_eq_some_iff.mp hd).1

theorem members_ne_nil {s : Symbols} (h : v.Backed s.structs table) (hs : s.Coherent) :
    v.members ≠ [] := by
  obtain ⟨d, first, hd, hmembers, _⟩ := h
  have hne := (hs.structs v.struct d hd).nonempty
  rw [hmembers, ← List.length_pos_iff, List.length_range']
  exact List.length_pos_iff.mpr hne

end Aggregate.Backed

namespace Resolution

/-- A declaration keeps what could be referred to before it. -/
theorem Declares.retains {r r' : Resolution} {name : String} {loc : Location}
    (h : Declares r name loc r') : r.symbols.Retains r'.symbols := by
  have hget {pid : Nat} {p : Procedure} (hproc : r.procedure? = some (pid, p)) :
      r.symbols.procs[pid]? = some p := (procedure?_eq_some.mp hproc).2
  cases h with
  | struct =>
    exact .of_procs rfl (List.prefix_append _ _) (List.prefix_refl _) (List.prefix_refl _)
      (List.prefix_refl _)
  | const | structConst =>
    exact .of_procs rfl (List.prefix_refl _) (List.prefix_refl _) (List.prefix_refl _)
      (List.prefix_refl _)
  | var =>
    exact .of_procs rfl (List.prefix_refl _) (List.prefix_append _ _) (List.prefix_refl _)
      (List.prefix_refl _)
  | structVar =>
    exact .of_procs rfl (List.prefix_refl _) (List.prefix_append _ _) (List.prefix_append _ _)
      (List.prefix_refl _)
  | memory _ hm =>
    exact .of_procs rfl (List.prefix_refl _) (List.prefix_refl _) (List.prefix_refl _)
      (Memory.reserve?_regions hm)
  | localVar hproc =>
    exact .modifyProc (hget hproc) (List.prefix_append _ _) (List.prefix_refl _)
      (List.prefix_refl _)
  | localStructVar hproc =>
    exact .modifyProc (hget hproc) (List.prefix_append _ _) (List.prefix_append _ _)
      (List.prefix_refl _)
  | localMemory hproc hm =>
    exact .modifyProc (hget hproc) (List.prefix_refl _) (List.prefix_refl _)
      (Memory.reserve?_regions hm)

variable {r r' : Resolution} {eof : Location} {t : Token} {rest rest' : List Token} {used : Nat}

/-- Every move of resolution keeps what could be referred to before it. -/
theorem Move.retains (h : Move eof r t rest r' used) (hsound : Sound r) :
    r.symbols.Retains r'.symbols := by
  cases h with
  | literal | string | word | openIf | openElse | closeIf | closeElse | closeProc => exact .refl _
  | openLet _ hp | closeLet _ _ _ hp =>
    exact .modifyProc (procedure?_eq_some.mp hp).2 (List.prefix_refl _) (List.prefix_refl _)
      (List.prefix_refl _)
  | declare _ _ _ hshape hproc hr =>
    exact (declareShape_declares (Shape.declared_of_classify hsound.tables hshape) hproc
      hr).retains
  | declareProc _ _ _ _ hr =>
    obtain ⟨_, p, _, _, _, _, _, rfl⟩ := declareProc_eq_ok hr
    exact .addProc _ _

/-- What can be referred to at a point of a resolution can be referred to at every later one. -/
theorem Reaches.retains (h : Reaches eof r rest r' rest') (hsound : Sound r) :
    r.symbols.Retains r'.symbols := by
  induction h with
  | start => exact .refl _
  | step h hstep ih => exact ih.trans ((step_move hstep).retains (h.sound hsound))

end Resolution

end StackEffect
