import StackEffect.Proofs.Except
import StackEffect.Proofs.Tables
import StackEffect.Resolution.Declaration

/-! # What declarations do to the tables

A declaration keeps the code and the names that are bound. It makes the tables grow, and adds only
types that are declared and indices that exist. A procedure is the one exception, for it also starts
its body.
-/

namespace StackEffect

namespace Resolution

/-- A declaration leaves the code as it is and makes the tables grow. The procedures and the names
bound in them stay. -/
structure Extends (r r' : Resolution) : Prop where
  code : r'.code = r.code
  current : r'.current = r.current
  grows : r.symbols.Grows r'.symbols
  bindings : r'.symbols.procs.map (·.bindings) = r.symbols.procs.map (·.bindings)
  tables : r'.symbols.WellFormed

theorem Extends.trans {r r' r'' : Resolution} (h : Extends r r') (h' : Extends r' r'') :
    Extends r r'' where
  code := h'.code.trans h.code
  current := h'.current.trans h.current
  grows := h.grows.trans h'.grows
  bindings := h'.bindings.trans h.bindings
  tables := h'.tables

variable {r : Resolution}

/-- New tables that keep the procedures. -/
theorem Extends.of_symbols {t : Symbols} (hstructs : r.symbols.structs.length ≤ t.structs.length)
    {vs : List Scalar} (hglobals : t.globals = r.symbols.globals ++ vs)
    (hprocs : t.procs = r.symbols.procs) (ht : t.WellFormed) :
    Extends r { r with symbols := t } where
  code := rfl
  current := rfl
  grows := .of_append hstructs hglobals (hprocs.trans (List.append_nil _).symm)
  bindings := by rw [hprocs]
  tables := ht

theorem Extends.setProcedure {id : Nat} {p p' : Procedure} (h : r.symbols.WellFormed)
    (hp : r.symbols.procs[id]? = some p) (hbindings : p'.bindings = p.bindings)
    (hlocals : p.locals.length ≤ p'.locals.length)
    (hp' : p'.WellFormed r.symbols.structs.length) : Extends r (r.setProcedure id p') where
  code := rfl
  current := rfl
  grows := Symbols.modifyProc_grows hp hlocals
  bindings := by
    refine List.ext_getElem? fun j => ?_
    by_cases hj : id = j
    · subst hj
      simp [Resolution.setProcedure, Symbols.modifyProc, hp, hbindings]
    · simp [Resolution.setProcedure, Symbols.modifyProc, hj]
  tables := h.modifyProc hp'

theorem Extends.refl (h : r.symbols.WellFormed) : Extends r r :=
  ⟨rfl, rfl, .refl _, rfl, h⟩

theorem procedure?_eq_some {id : Nat} {p : Procedure} :
    r.procedure? = some (id, p) ↔ r.current = some id ∧ r.symbols.procs[id]? = some p := by
  simp only [procedure?, Option.bind_eq_some_iff, Option.map_eq_some_iff, Prod.mk.injEq]
  constructor
  · rintro ⟨_, hid, _, hp, rfl, rfl⟩
    exact ⟨hid, hp⟩
  · rintro ⟨hid, hp⟩
    exact ⟨id, hid, p, hp, rfl, rfl⟩

/-- The number of variables in the scope that new ones are added to. -/
def slots (r : Resolution) : Nat :=
  match r.procedure? with
  | some (_, p) => p.locals.length
  | none => r.symbols.globals.length

/-- A new variable has the first index that is free. -/
theorem addVar_spec (h : r.symbols.WellFormed) {v : Scalar}
    (hv : v.value.ty.Declared r.symbols.structs.length) :
    Extends r (r.addVar v).2 ∧ (r.addVar v).1 = r.slots ∧ (r.addVar v).2.slots = r.slots + 1 := by
  cases hproc : r.procedure? with
  | none =>
    have hadded : r.addVar v = (r.symbols.globals.length,
        { r with symbols := (r.symbols.addGlobal v).2 }) := by
      simp [addVar, hproc, Symbols.addGlobal]
    have hnone : procedure? { r with symbols := (r.symbols.addGlobal v).2 } = none := hproc
    rw [hadded]
    refine ⟨.of_symbols (Nat.le_refl _) rfl rfl (h.addGlobal hv), by simp [slots, hproc], ?_⟩
    rw [slots, slots, hnone, hproc]
    simp [Symbols.addGlobal]
  | some found =>
    obtain ⟨id, p⟩ := found
    obtain ⟨hid, hp⟩ := procedure?_eq_some.mp hproc
    have hadded : r.addVar v = (p.locals.length, r.setProcedure id (p.addLocal v).2) := by
      simp [addVar, hproc, Procedure.addLocal]
    have hsome : (r.setProcedure id (p.addLocal v).2).procedure? = some (id, (p.addLocal v).2) :=
      procedure?_eq_some.mpr ⟨hid, by simp [setProcedure, Symbols.modifyProc, hp]⟩
    rw [hadded]
    refine ⟨.setProcedure h hp rfl (by simp [Procedure.addLocal])
      ((h.procs p (List.mem_of_getElem? hp)).addLocal hv), by simp [slots, hproc], ?_⟩
    rw [slots, slots, hsome, hproc]
    simp [Procedure.addLocal]

theorem addVars_spec (h : r.symbols.WellFormed) {vs : List Scalar}
    (hvs : ∀ v ∈ vs, v.value.ty.Declared r.symbols.structs.length) :
    Extends r (r.addVars vs).2 ∧ (∀ i ∈ (r.addVars vs).1, i < (r.addVars vs).2.slots) ∧
      r.slots ≤ (r.addVars vs).2.slots := by
  induction vs generalizing r with
  | nil => exact ⟨.refl h, by simp [addVars], Nat.le_refl _⟩
  | cons v vs ih =>
    obtain ⟨hv, hvs⟩ := List.forall_mem_cons.mp hvs
    obtain ⟨hextends, hindex, hslots⟩ := addVar_spec h hv
    obtain ⟨hrest, hindices, hle⟩ := ih hextends.tables
      fun v hv => (hvs v hv).mono hextends.grows.structs
    refine ⟨hextends.trans hrest, List.forall_mem_cons.mpr ⟨?_, hindices⟩, ?_⟩
    · change (r.addVar v).1 < ((r.addVar v).2.addVars vs).2.slots
      omega
    · change r.slots ≤ ((r.addVar v).2.addVars vs).2.slots
      omega

theorem addStructVar_extends (h : r.symbols.WellFormed) {v : Aggregate}
    (hv : v.InRange r.symbols.structs.length r.slots) : Extends r (r.addStructVar v) := by
  cases hproc : r.procedure? with
  | none =>
    simp only [slots, hproc] at hv
    simp only [addStructVar, hproc]
    exact .of_symbols (Nat.le_refl _) (List.append_nil _).symm rfl (h.addGlobalStruct hv)
  | some found =>
    obtain ⟨id, p⟩ := found
    obtain ⟨_, hp⟩ := procedure?_eq_some.mp hproc
    simp only [slots, hproc] at hv
    simp only [addStructVar, hproc]
    exact .setProcedure h hp rfl (Nat.le_refl _)
      ((h.procs p (List.mem_of_getElem? hp)).addLocalStruct hv)

theorem addConsts_extends (h : r.symbols.WellFormed) {cs : List Scalar}
    (hcs : ∀ c ∈ cs, c.value.ty.Declared r.symbols.structs.length) :
    Extends r (r.addConsts cs).2 := by
  induction cs generalizing r with
  | nil => exact .refl h
  | cons c cs ih =>
    obtain ⟨hc, hcs⟩ := List.forall_mem_cons.mp hcs
    have hadded : Extends r { r with symbols := (r.symbols.addConst c).2 } :=
      .of_symbols (Nat.le_refl _) (List.append_nil _).symm rfl (h.addConst hc)
    exact hadded.trans (ih hadded.tables hcs)

theorem addMemory?_extends (h : r.symbols.WellFormed) {name : String} {size : Nat} {loc : Location}
    {r' : Resolution} (hr : r.addMemory? name size loc = some r') : Extends r r' := by
  unfold addMemory? at hr
  split at hr
  · rename_i id p hproc
    obtain ⟨_, hp⟩ := procedure?_eq_some.mp hproc
    simp only [Procedure.addMemory?_eq, Option.map_map, Option.map_eq_some_iff] at hr
    obtain ⟨memory, _, rfl⟩ := hr
    have hwf := h.procs p (List.mem_of_getElem? hp)
    exact .setProcedure h hp rfl (Nat.le_refl _) ⟨hwf.ins, hwf.outs, hwf.locals, hwf.localStructs⟩
  · simp only [Symbols.addMemory?, Option.map_map, Option.map_eq_some_iff] at hr
    obtain ⟨memory, _, rfl⟩ := hr
    exact .of_symbols (Nat.le_refl _) (List.append_nil _).symm rfl
      ⟨h.structs, h.consts, h.globals, h.globalStructs, h.procs⟩

end Resolution

section Types

variable {sym : Symbols}

theorem declared_of_findStruct? {name : String} {id : Nat} {d : StructDef}
    (h : sym.findStruct? name = some (id, d)) : (Ty.struct id).Declared sym.structs.length :=
  (List.getElem?_eq_some_iff.mp (Named.getElem?_of_last? h)).1

theorem declared_of_scalar? {k : Keyword} {ty : Ty} (h : k.scalar? = some ty) (count : Nat) :
    ty.Declared count := by
  cases k <;> cases h <;> trivial

theorem declared_of_type? {t : Token} {ty : Ty} (h : t.type? sym = some ty) :
    ty.Declared sym.structs.length := by
  unfold Token.type? at h
  split at h
  · exact declared_of_scalar? h _
  · obtain ⟨⟨id, d⟩, hfound, rfl⟩ := Option.map_eq_some_iff.mp h
    exact declared_of_findStruct? hfound
  · cases h

theorem declared_of_signatureTypes (ts : List Token) :
    ∀ ty ∈ signatureTypes sym ts, ty.Declared sym.structs.length := by
  induction ts with
  | nil => simp [signatureTypes]
  | cons t ts ih =>
    unfold signatureTypes
    split
    · rename_i ty hty
      exact List.forall_mem_cons.mpr ⟨declared_of_type? hty, ih⟩
    · simp

theorem declared_of_namedType? {name : String} {ty : Ty} (h : sym.namedType? name = some ty) :
    ty.Declared sym.structs.length := by
  unfold Symbols.namedType? at h
  split at h
  · cases h
    trivial
  split at h
  · cases h
    trivial
  split at h
  · cases h
    trivial
  · obtain ⟨⟨id, d⟩, hfound, rfl⟩ := Option.map_eq_some_iff.mp h
    exact declared_of_findStruct? hfound

theorem declared_of_castTarget? {target : String} {ty : Ty} (h : sym.castTarget? target = some ty) :
    ty.Declared sym.structs.length := by
  unfold Symbols.castTarget? at h
  split at h
  · exact declared_of_namedType? h
  · obtain ⟨ty', hty', rfl⟩ := Option.map_eq_some_iff.mp h
    split
    · exact declared_of_namedType? hty'
    · trivial

theorem declared_snoc {members : List Member} {t : Token} {ty : Ty}
    (hmembers : ∀ m ∈ members, m.ty.Declared sym.structs.length) (hty : t.type? sym = some ty)
    (name : String) (initial : Value) :
    ∀ m ∈ members ++ [⟨name, ty, initial⟩], m.ty.Declared sym.structs.length :=
  List.forall_mem_append.mpr ⟨hmembers, by simpa using declared_of_type? hty⟩

/-- The members that are read have types that are declared before. -/
theorem declared_of_structMembers {name : String} {loc eof : Location} {members found : List Member}
    {count used : Nat} {ts : List Token}
    (hmembers : ∀ m ∈ members, m.ty.Declared sym.structs.length)
    (h : structMembers sym name loc eof members count ts = .ok (found, used)) :
    ∀ m ∈ found, m.ty.Declared sym.structs.length := by
  fun_induction structMembers sym name loc eof members count ts with
  | case2 =>
    cases h
    exact hmembers
  | case6 _ _ _ _ _ _ _ _ hty _ ih => exact ih (declared_snoc hmembers hty _ _) h
  | case7 _ _ _ _ _ _ _ _ hty _ _ _ _ ih => exact ih (declared_snoc hmembers hty _ _) h
  | case8 _ _ _ _ _ _ _ _ hty _ _ _ _ _ _ ih => exact ih (declared_snoc hmembers hty _ _) h
  | case1 | case3 | case4 | case5 | case9 | case10 => cases h

end Types

namespace Fold

variable {sym : Symbols} {loc : Location} {st st' : List Value}

def Declared (sym : Symbols) (st : List Value) : Prop :=
  ∀ v ∈ st, v.ty.Declared sym.structs.length

theorem declared_of_binary {word : String} {f : Value → Value → Except Fault Value}
    (hf : ∀ a b v, f a b = .ok v → a.ty.Declared sym.structs.length →
      v.ty.Declared sym.structs.length)
    (hst : Declared sym st) (h : binary sym word loc f st = .ok st') : Declared sym st' := by
  unfold binary at h
  split at h
  · rename_i top below st
    split at h
    · obtain ⟨v, hv, rfl⟩ := map_eq_ok h
      simp only [Declared, List.forall_mem_cons] at hst ⊢
      exact ⟨hf below top v hv hst.2.1, hst.2.2⟩
    · cases h
  · cases h

theorem declared_of_intrinsic? {i : Intrinsic} {effect : List Value → Except Fault (List Value)}
    (hi : intrinsic? sym loc i = some effect) (hst : Declared sym st)
    (h : effect st = .ok st') : Declared sym st' := by
  cases i with
  | dup | drop | swap | dupUnder | rot =>
    cases hi
    simp only at h
    split at h
    · cases h
      simp_all [Declared]
    · cases h
  | add | sub =>
    cases hi
    refine declared_of_binary (fun a b v hv ha => ?_) hst h
    cases hv
    exact ha
  | mul =>
    cases hi
    refine declared_of_binary (fun a b v hv ha => ?_) hst h
    unfold product at hv
    split at hv
    · cases hv
      trivial
    · cases hv
  | eq | ne =>
    cases hi
    refine declared_of_binary (fun a b v hv ha => ?_) hst h
    cases hv
    trivial
  | _ => cases hi

theorem declared_of_cast {word target : String} (hst : Declared sym st)
    (h : cast sym word target loc st = .ok st') : Declared sym st' := by
  unfold cast at h
  split at h
  · cases h
  · rename_i ty v st hty
    cases h
    obtain ⟨_, hst⟩ := List.forall_mem_cons.mp hst
    exact List.forall_mem_cons.mpr ⟨declared_of_castTarget? hty, hst⟩
  · cases h

theorem declared_of_constValues (hsym : sym.WellFormed) (c : Aggregate) :
    Declared sym (sym.constValues c) := by
  intro v hv
  obtain ⟨i, _, hi⟩ := List.mem_filterMap.mp hv
  obtain ⟨c, hc, rfl⟩ := Option.map_eq_some_iff.mp hi
  exact hsym.consts c (List.mem_of_getElem? hc)

theorem declared_of_constant (hsym : sym.WellFormed) {word : String} (hst : Declared sym st)
    (h : constant sym word loc st = .ok st') : Declared sym st' := by
  unfold constant at h
  split at h
  · cases h
    refine List.forall_mem_append.mpr ⟨fun v hv => ?_, hst⟩
    exact declared_of_constValues hsym _ v (List.mem_reverse.mp hv)
  · split at h
    · rename_i i c hc
      cases h
      have hmem := List.mem_of_getElem? (Named.getElem?_of_last? hc)
      exact List.forall_mem_cons.mpr ⟨hsym.consts c hmem, hst⟩
    · cases h

theorem declared_of_word (hsym : sym.WellFormed) {text : String} (hst : Declared sym st)
    (h : word sym text loc st = .ok st') : Declared sym st' := by
  unfold word at h
  split at h
  · rename_i effect heffect
    obtain ⟨i, _, hi⟩ := Option.bind_eq_some_iff.mp heffect
    exact declared_of_intrinsic? hi hst h
  · split at h
    · exact declared_of_cast hst h
    · exact declared_of_constant hsym hst h

theorem declared_of_token (hsym : sym.WellFormed) {t : Token} (hst : Declared sym st)
    (h : token sym t st = .ok st') : Declared sym st' := by
  unfold token at h
  split at h
  · cases h
    exact List.forall_mem_cons.mpr ⟨trivial, hst⟩
  · cases h
    exact List.forall_mem_cons.mpr ⟨trivial, hst⟩
  · cases h
    exact List.forall_mem_cons.mpr ⟨trivial, hst⟩
  · exact declared_of_word hsym hst h
  · cases h
  · cases h

theorem declared_of_run (hsym : sym.WellFormed) {eof : Location} {count : Nat} {ts : List Token}
    {folded : Folded} (hst : Declared sym st) (h : run sym eof st count ts = .ok folded) :
    Declared sym folded.values := by
  induction ts generalizing st count with
  | nil => cases h
  | cons t ts ih =>
    unfold run at h
    split at h
    · cases h
      simpa [Declared] using hst
    · split at h
      · rename_i st' htoken
        exact ih (declared_of_token hsym hst htoken) h
      · cases h

end Fold

def Shape.Declared (sym : Symbols) : Shape → Prop
  | var ty | const ty => ty.Declared sym.structs.length
  | structVar id d | structConst id d => sym.structs[id]? = some d
  | untyped value _ => value.ty.Declared sym.structs.length
  | struct | memory | proc => True

theorem Shape.declared_of_classify {sym : Symbols} (hsym : sym.WellFormed) {name : String}
    {loc eof : Location} {rest : List Token} {shape : Shape}
    (h : classify sym name loc eof rest = .ok shape) : shape.Declared sym := by
  unfold classify at h
  split at h
  · unfold ofPlain at h
    split at h
    · cases h
      trivial
    · split at h
      · rename_i ty hty
        cases h
        split <;> exact declared_of_scalar? hty _
      · cases h
    · cases h
  · unfold ofColon at h
    split at h
    · cases h
    · split at h
      · split at h
        · rename_i id d hd
          cases h
          split <;> exact Named.getElem?_of_last? hd
        · split at h
          · cases h
            trivial
          · cases h
      · cases h
        trivial
      · cases h
  · cases h
    unfold ofColons
    split
    · rename_i v consumed hfolded
      have hv := Fold.declared_of_run hsym (by simp [Fold.Declared]) hfolded
      exact hv v List.mem_cons_self
    · trivial
  · cases h

theorem Symbols.checkType_eq_ok {s : Symbols} {v value : Value} {ty : Ty} {what : String}
    {loc : Location} (h : s.checkType v ty what loc = .ok value) : value = v ∧ v.ty = ty := by
  unfold checkType at h
  split at h
  · rename_i hty
    cases h
    exact ⟨rfl, hty⟩
  · cases h

structure Procedure.Blank (p : Procedure) : Prop where
  locals : p.locals = []
  localStructs : p.localStructs = []
  memory : p.memory = {}
  bindings : p.bindings = []

theorem StructDef.declared_of_scalars {count : Nat} {d : StructDef}
    (hd : ∀ m ∈ d.members, m.ty.Declared count) (owner : String) (values : List Value)
    (loc : Location) : ∀ v ∈ d.scalars owner values loc, v.value.ty.Declared count := by
  intro v hv
  obtain ⟨⟨value, m⟩, hmem, rfl⟩ := List.mem_map.mp hv
  exact hd m (List.of_mem_zip hmem).2

namespace Resolution

variable {r r' : Resolution} {eof loc : Location} {name : String} {rest : List Token} {used : Nat}

/-! ### What was read

A declaration that succeeds has folded its initializer, and the state behind it is said in terms of
what this gave. -/

theorem declareVar_eq_ok {ty : Ty} (hr : r.declareVar eof name loc rest ty = .ok (r', used)) :
    ∃ folded value, r.fold eof rest 1 = .ok folded ∧
      r.initialValue loc folded ty s!"variable `{name}`" = .ok value ∧
      r' = (r.addVar ⟨name, ⟨value.bits, ty⟩, loc⟩).2 ∧ used = 1 + folded.consumed := by
  obtain ⟨folded, hfolded, hr⟩ := bind_eq_ok hr
  obtain ⟨value, hvalue, hr⟩ := bind_eq_ok hr
  cases hr
  exact ⟨folded, value, hfolded, hvalue, rfl, rfl⟩

theorem declareConst_eq_ok {ty : Ty} (hr : r.declareConst eof name loc rest ty = .ok (r', used)) :
    ∃ folded value, r.fold eof rest 3 = .ok folded ∧
      folded.single s!"constant `{name}`" loc = .ok value ∧ value.ty = ty ∧
      r' = (r.addConsts [⟨name, value, loc⟩]).2 ∧ used = 3 + folded.consumed := by
  obtain ⟨folded, hfolded, hr⟩ := bind_eq_ok hr
  obtain ⟨value, hvalue, hr⟩ := bind_eq_ok hr
  obtain ⟨checked, hchecked, hr⟩ := bind_eq_ok hr
  obtain ⟨hsame, hty⟩ := Symbols.checkType_eq_ok hchecked
  cases hr
  subst hsame hty
  exact ⟨folded, checked, hfolded, hvalue, rfl, rfl, rfl⟩

theorem declareStructVar_eq_ok {id : Nat} {d : StructDef}
    (hr : r.declareStructVar eof name loc rest id d = .ok (r', used)) :
    ∃ folded values, r.fold eof rest 2 = .ok folded ∧
      r.symbols.memberValues d folded true s!"variable `{name}`" loc = .ok values ∧
      r' = (r.addVars (d.scalars name values loc)).2.addStructVar
        ⟨name, id, (r.addVars (d.scalars name values loc)).1, loc⟩ ∧
      used = 2 + folded.consumed := by
  obtain ⟨folded, hfolded, hr⟩ := bind_eq_ok hr
  obtain ⟨values, hvalues, hr⟩ := bind_eq_ok hr
  cases hr
  exact ⟨folded, values, hfolded, hvalues, rfl, rfl⟩

theorem declareStructConst_eq_ok {id : Nat} {d : StructDef}
    (hr : r.declareStructConst eof name loc rest id d = .ok (r', used)) :
    ∃ folded values, r.fold eof rest 4 = .ok folded ∧
      r.symbols.memberValues d folded false s!"constant `{name}`" loc = .ok values ∧
      r' = { (r.addConsts (d.scalars name values loc)).2 with
        symbols := ((r.addConsts (d.scalars name values loc)).2.symbols.addStructConst
          ⟨name, id, (r.addConsts (d.scalars name values loc)).1, loc⟩).2 } ∧
      used = 4 + folded.consumed := by
  obtain ⟨folded, hfolded, hr⟩ := bind_eq_ok hr
  obtain ⟨values, hvalues, hr⟩ := bind_eq_ok hr
  cases hr
  exact ⟨folded, values, hfolded, hvalues, rfl, rfl⟩

theorem declareMemory_eq_ok (hr : r.declareMemory eof name loc rest = .ok (r', used)) :
    ∃ folded value, r.fold eof rest 1 = .ok folded ∧
      folded.single s!"memory region `{name}`" loc = .ok value ∧ value.ty = .int ∧
      0 < value.bits.toInt ∧ value.bits.toInt ≤ byteLimit ∧
      r.addMemory? name value.bits.toInt.toNat loc = some r' ∧ used = 1 + folded.consumed := by
  obtain ⟨folded, hfolded, hr⟩ := bind_eq_ok hr
  obtain ⟨value, hvalue, hr⟩ := bind_eq_ok hr
  obtain ⟨checked, hchecked, hr⟩ := bind_eq_ok hr
  obtain ⟨hsame, hty⟩ := Symbols.checkType_eq_ok hchecked
  simp only at hr
  split at hr
  · rename_i hsize
    split at hr
    · rename_i hmemory
      cases hr
      subst hsame
      exact ⟨folded, checked, hfolded, hvalue, hty, hsize.1, hsize.2, hmemory, rfl⟩
    · cases hr
  · cases hr

theorem addMemory?_of_declareMemory (hr : r.declareMemory eof name loc rest = .ok (r', used)) :
    ∃ size, r.addMemory? name size loc = some r' := by
  obtain ⟨_, _, _, _, _, _, _, hmemory, _⟩ := declareMemory_eq_ok hr
  exact ⟨_, hmemory⟩

theorem declareStruct_eq (hr : r.declareStruct eof name loc rest = .ok (r', used)) :
    r.procedure? = none ∧ ∃ members,
      structMembers r.symbols name loc eof [] 1 (rest.drop 1) = .ok (members, used) ∧
      members ≠ [] ∧ r' = { r with symbols := (r.symbols.addStruct ⟨name, members, loc⟩).2 } := by
  unfold declareStruct at hr
  split at hr
  · cases hr
  · rename_i htop
    obtain ⟨⟨members, count⟩, hmembers, hr⟩ := bind_eq_ok hr
    simp only at hr
    split at hr
    · cases hr
    · rename_i hne
      cases hr
      exact ⟨htop, members, hmembers, by simpa using hne, rfl⟩

/-! ### What it adds to -/

theorem declareStructVar_extends (h : r.symbols.WellFormed) {id : Nat} {d : StructDef}
    (hd : r.symbols.structs[id]? = some d)
    (hr : r.declareStructVar eof name loc rest id d = .ok (r', used)) : Extends r r' := by
  obtain ⟨folded, values, _, _, rfl, _⟩ := declareStructVar_eq_ok hr
  obtain ⟨hid, hget⟩ := List.getElem?_eq_some_iff.mp hd
  have hmembers := h.structs d (List.mem_of_getElem? hd)
  obtain ⟨hvars, hindices, _⟩ := addVars_spec h
    (StructDef.declared_of_scalars hmembers name values loc)
  refine hvars.trans (addStructVar_extends hvars.tables ⟨?_, hindices⟩)
  exact Nat.lt_of_lt_of_le hid hvars.grows.structs

theorem declareStructConst_extends (h : r.symbols.WellFormed) {id : Nat} {d : StructDef}
    (hd : r.symbols.structs[id]? = some d)
    (hr : r.declareStructConst eof name loc rest id d = .ok (r', used)) : Extends r r' := by
  obtain ⟨folded, values, _, _, rfl, _⟩ := declareStructConst_eq_ok hr
  have hmembers := h.structs d (List.mem_of_getElem? hd)
  have hconsts := addConsts_extends h (StructDef.declared_of_scalars hmembers name values loc)
  have hwf := hconsts.tables
  refine hconsts.trans (.of_symbols (Nat.le_refl _) (List.append_nil _).symm rfl ?_)
  exact ⟨hwf.structs, hwf.consts, hwf.globals, hwf.globalStructs, hwf.procs⟩

/-- Every declaration but that of a procedure only extends the tables. -/
theorem declareShape_extends (h : r.symbols.WellFormed) {shape : Shape}
    (hshape : shape.Declared r.symbols) (hproc : shape ≠ .proc)
    (hr : r.declareShape eof name loc rest shape = .ok (r', used)) : Extends r r' := by
  cases shape with
  | struct =>
    obtain ⟨_, members, hmembers, _, rfl⟩ := declareStruct_eq hr
    exact .of_symbols (by simp [Symbols.addStruct]) (List.append_nil _).symm rfl
      (h.addStruct (declared_of_structMembers (by simp) hmembers))
  | var ty =>
    obtain ⟨_, value, _, _, rfl, _⟩ := declareVar_eq_ok hr
    have hty : ty.Declared r.symbols.structs.length := hshape
    exact (addVar_spec h hty).1
  | const ty =>
    obtain ⟨_, value, _, _, rfl, rfl, _⟩ := declareConst_eq_ok hr
    exact addConsts_extends h (List.forall_mem_singleton.mpr hshape)
  | structVar id d => exact declareStructVar_extends h hshape hr
  | structConst id d => exact declareStructConst_extends h hshape hr
  | memory =>
    obtain ⟨size, hmemory⟩ := addMemory?_of_declareMemory hr
    exact addMemory?_extends h hmemory
  | untyped value consumed =>
    cases hr
    exact addConsts_extends h (List.forall_mem_singleton.mpr hshape)
  | proc => exact absurd rfl hproc

theorem declared_of_procOuts {sym : Symbols} (ts : List Token) :
    ∀ ty ∈ (procOuts sym ts).1, ty.Declared sym.structs.length := by
  unfold procOuts
  split
  · exact declared_of_signatureTypes _
  · simp

/-- The declaration of a procedure starts its body outside of every other. -/
theorem declareProc_eq_ok (hr : r.declareProc name loc rest = .ok (r', used)) :
    r.procedure? = none ∧ ∃ p : Procedure, p.name = name ∧ p.loc = loc ∧ p.Blank ∧
      (∀ ty ∈ p.ins, ty.Declared r.symbols.structs.length) ∧
      (∀ ty ∈ p.outs, ty.Declared r.symbols.structs.length) ∧
      r' = { r with
        symbols := (r.symbols.addProc p).2
        code := r.code.openBlock (.procBlock r.symbols.procs.length)
          (.procBegin r.symbols.procs.length) loc
        current := some r.symbols.procs.length } := by
  unfold declareProc at hr
  split at hr
  · cases hr
  · rename_i hnone
    cases hr
    exact ⟨hnone, _, rfl, rfl, ⟨rfl, rfl, rfl, rfl⟩, declared_of_signatureTypes _,
      declared_of_procOuts _, rfl⟩

end Resolution

end StackEffect
