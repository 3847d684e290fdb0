import StackEffect.Proofs.MemberWords

/-! # Names come from words

Structs, their members, variables and procedures are named by words of the text, and the slots of
struct variables by two of them with a dot between. So what holds of all words, and of such
combinations, holds of all these names.
-/

namespace StackEffect

/-- The names of structs, members, variables and procedures have a property. -/
structure Symbols.AllNames (P : String → Prop) (s : Symbols) : Prop where
  structs : ∀ d ∈ s.structs, P d.name
  members : ∀ d ∈ s.structs, ∀ m ∈ d.members, P m.name
  globals : ∀ v ∈ s.globals, P v.name
  procs : ∀ p ∈ s.procs, P p.name
  locals : ∀ p ∈ s.procs, ∀ v ∈ p.locals, P v.name

theorem Symbols.allNames_true (s : Symbols) : s.AllNames fun _ => True :=
  ⟨fun _ _ => trivial, fun _ _ _ _ => trivial, fun _ _ => trivial, fun _ _ => trivial,
    fun _ _ _ _ => trivial⟩

theorem Symbols.allNames_empty (P : String → Prop) : ({} : Symbols).AllNames P :=
  ⟨by simp, by simp, by simp, by simp, by simp⟩

/-- A procedure may be replaced by one of the same name, if its variables have the property. -/
theorem Symbols.AllNames.modifyProc {P : String → Prop} {s : Symbols} (h : s.AllNames P) {id : Nat}
    {p p' : Procedure} (hp : s.procs[id]? = some p) (hname : p'.name = p.name)
    (hlocals : ∀ v ∈ p'.locals, P v.name) : (s.modifyProc id fun _ => p').AllNames P where
  structs := h.structs
  members := h.members
  globals := h.globals
  procs := forall_modifyProc h.procs (hname ▸ h.procs p (List.mem_of_getElem? hp))
  locals := forall_modifyProc h.locals hlocals

namespace Resolution

variable {r r' : Resolution} {eof loc : Location} {t : Token} {ts rest : List Token} {used : Nat}
  {name : String} {P : String → Prop} (hdot : ∀ a b : String, P a → P b → P s!"{a}.{b}")

include hdot

theorem names_of_scalars (hr : r.symbols.AllNames P) (hname : P name) {id : Nat} {d : StructDef}
    (hd : r.symbols.structs[id]? = some d) (values : List Value) (loc : Location) :
    ∀ v ∈ d.scalars name values loc, P v.name := by
  intro v hv
  obtain ⟨⟨value, m⟩, hmem, rfl⟩ := List.mem_map.mp hv
  exact hdot _ _ hname (hr.members d (List.mem_of_getElem? hd) m (List.of_mem_zip hmem).2)

theorem Declares.allNames (h : Declares r name loc r') (hname : P name)
    (hmembers : ∀ d ∈ r'.symbols.structs, ∀ m ∈ d.members, P m.name)
    (hr : r.symbols.AllNames P) : r'.symbols.AllNames P := by
  have hown {pid : Nat} {p : Procedure} (hproc : r.procedure? = some (pid, p)) :
      r.symbols.procs[pid]? = some p ∧ ∀ v ∈ p.locals, P v.name := by
    have hp := (procedure?_eq_some.mp hproc).2
    exact ⟨hp, hr.locals p (List.mem_of_getElem? hp)⟩
  cases h with
  | struct =>
    refine ⟨List.forall_mem_append.mpr ⟨hr.structs, List.forall_mem_singleton.mpr hname⟩, hmembers,
      hr.globals, hr.procs, hr.locals⟩
  | const | structConst | memory =>
    exact ⟨hr.structs, hr.members, hr.globals, hr.procs, hr.locals⟩
  | var =>
    exact ⟨hr.structs, hr.members, List.forall_mem_append.mpr ⟨hr.globals,
      List.forall_mem_singleton.mpr hname⟩, hr.procs, hr.locals⟩
  | structVar _ hd =>
    exact ⟨hr.structs, hr.members, List.forall_mem_append.mpr ⟨hr.globals,
      names_of_scalars hdot hr hname hd _ _⟩, hr.procs, hr.locals⟩
  | localVar hproc =>
    obtain ⟨hp, hlocals⟩ := hown hproc
    exact hr.modifyProc hp rfl
      (List.forall_mem_append.mpr ⟨hlocals, List.forall_mem_singleton.mpr hname⟩)
  | localStructVar hproc hd =>
    obtain ⟨hp, hlocals⟩ := hown hproc
    exact hr.modifyProc hp rfl
      (List.forall_mem_append.mpr ⟨hlocals, names_of_scalars hdot hr hname hd _ _⟩)
  | localMemory hproc =>
    obtain ⟨hp, hlocals⟩ := hown hproc
    exact hr.modifyProc hp rfl hlocals

theorem Move.allNames (h : Move eof r t rest r' used) (hsound : Sound r)
    (hwords : ∀ u ∈ t :: rest, ∀ w, u.kind = .word w → P w) (hr : r.symbols.AllNames P) :
    r'.symbols.AllNames P := by
  have hmembers := h.memberNames (fun u hu => hwords u (List.mem_cons_of_mem _ hu)) hr.members
  cases h with
  | literal | string | word | openIf | openElse | closeIf | closeElse | closeProc =>
    exact ⟨hr.structs, hr.members, hr.globals, hr.procs, hr.locals⟩
  | openLet _ hp | closeLet _ _ _ hp =>
    have hget := (procedure?_eq_some.mp hp).2
    have hlocals := hr.locals _ (List.mem_of_getElem? hget)
    exact hr.modifyProc hget rfl hlocals
  | declare ht _ _ hshape hproc hdeclare =>
    exact (declareShape_declares (Shape.declared_of_classify hsound.tables hshape) hproc
      hdeclare).allNames hdot (hwords t List.mem_cons_self _ ht) hmembers hr
  | declareProc ht _ _ _ hdeclare =>
    have hname := hwords t List.mem_cons_self _ ht
    obtain ⟨_, p, rfl, _, hblank, _, _, rfl⟩ := declareProc_eq_ok hdeclare
    refine ⟨hr.structs, hr.members, hr.globals, ?_, ?_⟩
    · exact List.forall_mem_append.mpr ⟨hr.procs, List.forall_mem_singleton.mpr hname⟩
    · exact List.forall_mem_append.mpr ⟨hr.locals, List.forall_mem_singleton.mpr
        (by simp [hblank.locals])⟩

/-- What holds of all words holds of the names at every point of a resolution. -/
theorem Reaches.allNames (h : Reaches eof {} ts r rest)
    (hwords : ∀ t ∈ ts, ∀ w, t.kind = .word w → P w) : r.symbols.AllNames P := by
  induction h with
  | start => exact Symbols.allNames_empty P
  | step h hstep ih =>
    refine (step_move hstep).allNames hdot (h.sound .empty) (fun u hu => hwords u ?_) ih
    exact h.suffix.subset hu

end Resolution

end StackEffect
