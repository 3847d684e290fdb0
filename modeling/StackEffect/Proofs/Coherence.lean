import StackEffect.Proofs.Additions
import StackEffect.Proofs.Nesting
import StackEffect.Proofs.Weakening

/-! # Coherent tables

Structs have different names, and each refers to those before it only. The entries that stand for
the members of a struct variable or constant lie one behind the other, with the names and types
that the struct gives them. Every declaration keeps this, so it holds at every point of a
resolution, together with the types and indices that are in range.
-/

namespace StackEffect

/-- A table has an entry for each member of a struct variable or constant, one behind the other. -/
def Aggregate.Backed (structs : List StructDef) (table : List Scalar) (v : Aggregate) : Prop :=
  ∃ d first, structs[v.struct]? = some d ∧ v.members = List.range' first d.members.length ∧
    ∀ i m, d.members[i]? = some m → ∃ s, table[first + i]? = some s ∧
      s.name = s!"{v.name}.{m.name}" ∧ s.value.ty = m.ty

theorem Aggregate.Backed.mono {structs structs' : List StructDef} {table table' : List Scalar}
    {v : Aggregate} (h : v.Backed structs table) (hstructs : structs <+: structs')
    (htable : table <+: table') : v.Backed structs' table' := by
  obtain ⟨d, first, hd, hmembers, hentries⟩ := h
  refine ⟨d, first, Symbols.IsPrefix.entry_stays hstructs hd, hmembers, ?_⟩
  intro i m hm
  obtain ⟨s, hs, hname, hty⟩ := hentries i m hm
  exact ⟨s, Symbols.IsPrefix.entry_stays htable hs, hname, hty⟩

/-- The scalars of a struct back the entry that lists them. -/
theorem StructDef.backed_scalars {structs : List StructDef} {id : Nat} {d : StructDef}
    {values : List Value} (hd : structs[id]? = some d)
    (hvalues : values.length = d.members.length) (table : List Scalar) (name : String)
    (loc : Location) :
    (⟨name, id, List.range' table.length d.members.length, loc⟩ : Aggregate).Backed structs
      (table ++ d.scalars name values loc) := by
  refine ⟨d, table.length, hd, rfl, ?_⟩
  intro i m hm
  have hi : i < values.length := hvalues ▸ (List.getElem?_eq_some_iff.mp hm).1
  have hpair : (values.zip d.members)[i]? = some (values[i], m) :=
    List.getElem?_zip_eq_some.mpr ⟨List.getElem?_eq_getElem hi, hm⟩
  refine ⟨⟨s!"{name}.{m.name}", ⟨values[i].bits, m.ty⟩, loc⟩, ?_, rfl, rfl⟩
  rw [List.getElem?_append_right (Nat.le_add_right _ _), Nat.add_sub_cancel_left, scalars,
    List.getElem?_map, hpair]
  rfl

namespace Symbols

/-- Structs are regular and have names of their own, and every struct variable and constant has its
entries. -/
structure Coherent (s : Symbols) : Prop where
  structs : ∀ (k : Nat) (d : StructDef), s.structs[k]? = some d → d.Regular k
  names : (s.structs.map (·.name)).Nodup
  structConsts : ∀ c ∈ s.structConsts, c.Backed s.structs s.consts
  globalStructs : ∀ v ∈ s.globalStructs, v.Backed s.structs s.globals
  localStructs : ∀ p ∈ s.procs, ∀ v ∈ p.localStructs, v.Backed s.structs p.locals

namespace Coherent

variable {s : Symbols}

theorem empty : ({} : Symbols).Coherent := by
  constructor <;> simp

theorem addStruct (h : s.Coherent) {d : StructDef} (hd : d.Regular s.structs.length)
    (hname : s.findStruct? d.name = none) : (s.addStruct d).2.Coherent := by
  have hstructs : s.structs <+: s.structs ++ [d] := List.prefix_append _ _
  refine ⟨?_, ?_, fun c hc => (h.structConsts c hc).mono hstructs (List.prefix_refl _),
    fun v hv => (h.globalStructs v hv).mono hstructs (List.prefix_refl _),
    fun p hp v hv => (h.localStructs p hp v hv).mono hstructs (List.prefix_refl _)⟩
  · intro k d' hd'
    rcases Nat.lt_or_ge k s.structs.length with hk | hk
    · rw [Symbols.addStruct, List.getElem?_append_left hk] at hd'
      exact h.structs k d' hd'
    · obtain ⟨hlt, hget⟩ := List.getElem?_eq_some_iff.mp hd'
      obtain rfl : k = s.structs.length := by
        simp only [Symbols.addStruct, List.length_append, List.length_singleton] at hlt
        omega
      simp only [Symbols.addStruct, List.getElem_concat_length] at hget
      exact hget ▸ hd
  · have hother : ∀ d' ∈ s.structs, d'.name ≠ d.name := Named.last?_eq_none.mp hname
    simpa [Symbols.addStruct, List.nodup_append, h.names] using hother

/-- New constants. Those of struct type have to be backed. -/
theorem appendConsts (h : s.Coherent) (consts : List Scalar) {structConsts : List Aggregate}
    (hnew : ∀ c ∈ structConsts, c.Backed s.structs (s.consts ++ consts)) :
    ({ s with
      consts := s.consts ++ consts
      structConsts := s.structConsts ++ structConsts } : Symbols).Coherent where
  structs := h.structs
  names := h.names
  structConsts := List.forall_mem_append.mpr ⟨fun c hc =>
    (h.structConsts c hc).mono (List.prefix_refl _) (List.prefix_append _ _), hnew⟩
  globalStructs := h.globalStructs
  localStructs := h.localStructs

/-- New global variables. Those of struct type have to be backed. -/
theorem appendGlobals (h : s.Coherent) (globals : List Scalar) {globalStructs : List Aggregate}
    (hnew : ∀ v ∈ globalStructs, v.Backed s.structs (s.globals ++ globals)) :
    ({ s with
      globals := s.globals ++ globals
      globalStructs := s.globalStructs ++ globalStructs } : Symbols).Coherent where
  structs := h.structs
  names := h.names
  structConsts := h.structConsts
  globalStructs := List.forall_mem_append.mpr ⟨fun v hv =>
    (h.globalStructs v hv).mono (List.prefix_refl _) (List.prefix_append _ _), hnew⟩
  localStructs := h.localStructs

theorem modifyProc (h : s.Coherent) {id : Nat} {p : Procedure}
    (hp : ∀ v ∈ p.localStructs, v.Backed s.structs p.locals) :
    (s.modifyProc id fun _ => p).Coherent where
  structs := h.structs
  names := h.names
  structConsts := h.structConsts
  globalStructs := h.globalStructs
  localStructs := forall_modifyProc h.localStructs hp

theorem addProc (h : s.Coherent) {p : Procedure} (hp : p.localStructs = []) :
    (s.addProc p).2.Coherent where
  structs := h.structs
  names := h.names
  structConsts := h.structConsts
  globalStructs := h.globalStructs
  localStructs := by simpa [Symbols.addProc, or_imp, forall_and, hp] using h.localStructs

end Coherent

end Symbols

namespace Resolution

variable {r r' : Resolution} {eof loc : Location} {rest : List Token} {used : Nat}

/-- A declaration of a name that no struct has keeps the tables coherent. -/
theorem Declares.coherent {name : String} (hdeclares : Declares r name loc r')
    (h : r.symbols.Coherent) (hname : r.symbols.findStruct? name = none) :
    r'.symbols.Coherent := by
  have hlocal {pid : Nat} {p : Procedure} (hproc : r.procedure? = some (pid, p)) :
      ∀ v ∈ p.localStructs, v.Backed r.symbols.structs p.locals :=
    h.localStructs p (List.mem_of_getElem? (procedure?_eq_some.mp hproc).2)
  cases hdeclares with
  | struct _ hmembers => exact h.addStruct hmembers hname
  | @const value _ =>
    have hnone : ∀ c ∈ ([] : List Aggregate),
        c.Backed r.symbols.structs (r.symbols.consts ++ [⟨name, value, loc⟩]) := by simp
    simpa [Symbols.addConst] using h.appendConsts _ hnone
  | structConst hd hvalues =>
    exact h.appendConsts _
      (List.forall_mem_singleton.mpr (StructDef.backed_scalars hd hvalues _ name loc))
  | @var value _ _ =>
    have hnone : ∀ v ∈ ([] : List Aggregate),
        v.Backed r.symbols.structs (r.symbols.globals ++ [⟨name, value, loc⟩]) := by simp
    simpa [Symbols.addGlobal] using h.appendGlobals _ hnone
  | structVar _ hd hvalues =>
    exact h.appendGlobals _
      (List.forall_mem_singleton.mpr (StructDef.backed_scalars hd hvalues _ name loc))
  | memory => exact ⟨h.structs, h.names, h.structConsts, h.globalStructs, h.localStructs⟩
  | localVar hproc _ =>
    exact h.modifyProc fun v hv =>
      (hlocal hproc v hv).mono (List.prefix_refl _) (List.prefix_append _ _)
  | localStructVar hproc hd hvalues =>
    refine h.modifyProc (List.forall_mem_append.mpr ⟨fun v hv => ?_, ?_⟩)
    · exact (hlocal hproc v hv).mono (List.prefix_refl _) (List.prefix_append _ _)
    · exact List.forall_mem_singleton.mpr (StructDef.backed_scalars hd hvalues _ name loc)
  | localMemory hproc _ => exact h.modifyProc fun v hv => hlocal hproc v hv

/-- Every move of resolution keeps the tables coherent. -/
theorem Move.coherent {t : Token} (hmove : Move eof r t rest r' used)
    (hsym : r.symbols.WellFormed) (h : r.symbols.Coherent) : r'.symbols.Coherent := by
  have hlocal {pid : Nat} {p : Procedure} (hproc : r.procedure? = some (pid, p)) :
      ∀ v ∈ p.localStructs, v.Backed r.symbols.structs p.locals :=
    h.localStructs p (List.mem_of_getElem? (procedure?_eq_some.mp hproc).2)
  cases hmove with
  | literal | string | word | openIf | openElse | closeIf | closeElse | closeProc => exact h
  | openLet _ hp | closeLet _ _ _ hp => exact h.modifyProc fun v hv => hlocal hp v hv
  | declare _ _ hs hshape hproc hr =>
    exact (declareShape_declares (Shape.declared_of_classify hsym hshape) hproc hr).coherent h hs
  | declareProc _ _ _ _ hr =>
    obtain ⟨_, p, _, _, hblank, _, _, rfl⟩ := declareProc_eq_ok hr
    exact h.addProc hblank.localStructs

theorem Reaches.coherent {start : Resolution} {ts : List Token} (h : Reaches eof start ts r rest)
    (hsound : Sound start) (hstart : start.symbols.Coherent) : r.symbols.Coherent := by
  induction h with
  | start => exact hstart
  | step h hstep ih => exact (step_move hstep).coherent (h.sound hsound).tables ih

end Resolution

/-- At every point of a resolution, whether it succeeds in the end or not, the tables are coherent,
and all types and indices in them are those of things declared. -/
theorem tables_stay_coherent (s : TokenStream) (r : Resolution) (rest : List Token)
    (h : Resolution.Reaches s.eof {} s.tokens r rest) :
    r.symbols.WellFormed ∧ r.symbols.Coherent :=
  ⟨(h.sound .empty).tables, h.coherent .empty .empty⟩

def structText : String :=
  "Point struct x int 7 y int end Edge struct from Point null live bool true end " ++
    "AXIS : Edge :: 64 #Point false end edge : Edge end f :: side : Edge 8 #Point true end end"

theorem tables_of_struct_text_are_coherent :
    ∃ s r, TokenStream.ofSource "structs" structText = .ok s ∧
      Resolution.Reaches s.eof {} s.tokens r [] ∧ r.symbols.WellFormed ∧ r.symbols.Coherent := by
  have hok : (Program.ofSource "structs" structText).toOption.isSome := by decide +kernel
  cases hp : Program.ofSource "structs" structText with
  | error f =>
    rw [hp] at hok
    cases hok
  | ok p =>
    obtain ⟨s, r, hs, hr, _⟩ := Program.exists_reaches hp
    have h := tables_stay_coherent s r [] hr
    exact ⟨s, r, hs, hr, h.1, h.2⟩

end StackEffect
