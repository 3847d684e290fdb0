import StackEffect.Proofs.Steps

/-! # Tables only grow

Nothing that has been declared is changed or taken back, with one exception: as long as the body of
a procedure is being read, the entry of that procedure is under construction. So all tables but this
entry at one point of a resolution are the front parts of the tables at every later point. The
operations and the string literals grow in the same way.
-/

namespace StackEffect

namespace Symbols

/-- Each table is the front part of another, and no memory is given back. -/
structure IsPrefix (s t : Symbols) : Prop where
  structs : s.structs <+: t.structs
  consts : s.consts <+: t.consts
  structConsts : s.structConsts <+: t.structConsts
  globals : s.globals <+: t.globals
  globalStructs : s.globalStructs <+: t.globalStructs
  regions : s.memory.regions <+: t.memory.regions
  size : s.memory.size ≤ t.memory.size
  procs : s.procs <+: t.procs

theorem IsPrefix.refl (s : Symbols) : s.IsPrefix s :=
  ⟨List.prefix_refl _, List.prefix_refl _, List.prefix_refl _, List.prefix_refl _,
    List.prefix_refl _, List.prefix_refl _, Nat.le_refl _, List.prefix_refl _⟩

theorem IsPrefix.trans {s t u : Symbols} (h : s.IsPrefix t) (h' : t.IsPrefix u) : s.IsPrefix u where
  structs := h.structs.trans h'.structs
  consts := h.consts.trans h'.consts
  structConsts := h.structConsts.trans h'.structConsts
  globals := h.globals.trans h'.globals
  globalStructs := h.globalStructs.trans h'.globalStructs
  regions := h.regions.trans h'.regions
  size := Nat.le_trans h.size h'.size
  procs := h.procs.trans h'.procs

theorem IsPrefix.addMemory? {s t : Symbols} {name : String} {size index : Nat} {loc : Location}
    (h : s.addMemory? name size loc = some (index, t)) : s.IsPrefix t := by
  obtain ⟨m, hm, heq⟩ := Option.map_eq_some_iff.mp h
  cases heq
  unfold Memory.reserve? at hm
  split at hm
  · cases hm
  · split at hm
    · cases hm
      exact { IsPrefix.refl s with
        regions := List.prefix_append _ _
        size := Nat.le_add_right _ _ }
    · cases hm

end Symbols

theorem Lexicon.intern_isPrefix (l : Lexicon) (text : String) :
    l.texts <+: (l.intern text).1.texts := by
  unfold Lexicon.intern
  split
  · exact List.prefix_refl _
  · exact List.prefix_append _ _

namespace Resolution

/-- The tables without the procedure whose body is being read. -/
def settled (r : Resolution) : Symbols :=
  { r.symbols with procs := r.current.elim r.symbols.procs fun id => r.symbols.procs.take id }

variable {r r' : Resolution} {eof loc : Location} {name : String} {rest : List Token} {used : Nat}

theorem settled_eq_symbols (h : r.current = none) : r.settled = r.symbols := by
  simp [settled, h]

theorem settled_procs_isPrefix (r : Resolution) : r.settled.procs <+: r.symbols.procs := by
  cases h : r.current with
  | none => simp [settled, h]
  | some id => simpa [settled, h] using List.take_prefix id _

/-- What the declaration of a name does: it adds to the tables, or to the procedure whose body is
being read, and touches nothing else. -/
structure Adds (name : String) (r r' : Resolution) : Prop where
  strings : r'.strings = r.strings
  code : r'.code = r.code
  current : r'.current = r.current
  settled : r.settled.IsPrefix r'.settled
  procs : r'.settled.procs = r.settled.procs
  count : r'.symbols.procs.length = r.symbols.procs.length
  structConsts : ∀ c ∈ r'.symbols.structConsts, c ∈ r.symbols.structConsts ∨ c.name = name

namespace Adds

theorem refl (name : String) (r : Resolution) : Adds name r r :=
  ⟨rfl, rfl, rfl, .refl _, rfl, rfl, fun _ hc => .inl hc⟩

theorem trans {r'' : Resolution} (h : Adds name r r') (h' : Adds name r' r'') :
    Adds name r r'' where
  strings := h'.strings.trans h.strings
  code := h'.code.trans h.code
  current := h'.current.trans h.current
  settled := h.settled.trans h'.settled
  procs := h'.procs.trans h.procs
  count := h'.count.trans h.count
  structConsts c hc := (h'.structConsts c hc).elim (h.structConsts c) .inr

/-- New tables that keep the procedures. -/
theorem of_symbols {t : Symbols} (h : r.symbols.IsPrefix t) (hprocs : t.procs = r.symbols.procs)
    (hconsts : ∀ c ∈ t.structConsts, c ∈ r.symbols.structConsts ∨ c.name = name) :
    Adds name r { r with symbols := t } where
  strings := rfl
  code := rfl
  current := rfl
  settled := { h with procs := by simp [Resolution.settled, hprocs] }
  procs := by simp [Resolution.settled, hprocs]
  count := by rw [hprocs]
  structConsts := hconsts

theorem setProcedure (name : String) {id : Nat} (hid : r.current = some id) (p : Procedure) :
    Adds name r (r.setProcedure id p) := by
  have hsettled : (r.setProcedure id p).settled = r.settled := by
    simp [Resolution.settled, Resolution.setProcedure, Symbols.modifyProc, hid,
      List.take_modify, List.modify_eq_self (List.length_take_le id _)]
  exact ⟨rfl, rfl, rfl, hsettled ▸ .refl _, by rw [hsettled],
    by simp [Resolution.setProcedure, Symbols.modifyProc], fun _ hc => .inl hc⟩

theorem addVar (name : String) (r : Resolution) (v : Scalar) : Adds name r (r.addVar v).2 := by
  cases hproc : r.procedure? with
  | none =>
    simp only [Resolution.addVar, hproc]
    exact .of_symbols { Symbols.IsPrefix.refl r.symbols with globals := List.prefix_append _ _ } rfl
      fun _ hc => .inl hc
  | some found =>
    simp only [Resolution.addVar, hproc]
    exact .setProcedure name (procedure?_eq_some.mp hproc).1 _

theorem addVars (name : String) (r : Resolution) (vs : List Scalar) :
    Adds name r (r.addVars vs).2 := by
  induction vs generalizing r with
  | nil => exact .refl name r
  | cons v vs ih => exact (addVar name r v).trans (ih (r.addVar v).2)

theorem addStructVar (name : String) (r : Resolution) (v : Aggregate) :
    Adds name r (r.addStructVar v) := by
  cases hproc : r.procedure? with
  | none =>
    simp only [Resolution.addStructVar, hproc]
    exact .of_symbols { Symbols.IsPrefix.refl r.symbols with
      globalStructs := List.prefix_append _ _ } rfl fun _ hc => .inl hc
  | some found =>
    simp only [Resolution.addStructVar, hproc]
    exact .setProcedure name (procedure?_eq_some.mp hproc).1 _

theorem addConsts (name : String) (r : Resolution) (cs : List Scalar) :
    Adds name r (r.addConsts cs).2 := by
  induction cs generalizing r with
  | nil => exact .refl name r
  | cons c cs ih =>
    have hadded : Adds name r { r with symbols := (r.symbols.addConst c).2 } :=
      .of_symbols { Symbols.IsPrefix.refl r.symbols with consts := List.prefix_append _ _ } rfl
        fun _ hc => .inl hc
    exact hadded.trans (ih _)

theorem addMemory? {size : Nat} (hr : r.addMemory? name size loc = some r') : Adds name r r' := by
  unfold Resolution.addMemory? at hr
  split at hr
  · rename_i id p hproc
    obtain ⟨⟨index, p'⟩, _, rfl⟩ := Option.map_eq_some_iff.mp hr
    exact .setProcedure name (procedure?_eq_some.mp hproc).1 p'
  · obtain ⟨⟨index, symbols⟩, hadded, rfl⟩ := Option.map_eq_some_iff.mp hr
    have hsame : symbols.procs = r.symbols.procs ∧
        symbols.structConsts = r.symbols.structConsts := by
      obtain ⟨m, _, heq⟩ := Option.map_eq_some_iff.mp hadded
      cases heq
      exact ⟨rfl, rfl⟩
    exact .of_symbols (.addMemory? hadded) hsame.1 fun _ hc => .inl (hsame.2 ▸ hc)

end Adds

/-- Every declaration but that of a procedure only adds to the tables. -/
theorem declareShape_adds {shape : Shape} (hproc : shape ≠ .proc)
    (hr : r.declareShape eof name loc rest shape = .ok (r', used)) : Adds name r r' := by
  cases shape with
  | struct =>
    obtain ⟨_, members, _, _, rfl⟩ := declareStruct_eq hr
    exact .of_symbols { Symbols.IsPrefix.refl r.symbols with structs := List.prefix_append _ _ }
      rfl fun _ hc => .inl hc
  | var ty =>
    obtain ⟨_, value, _, _, rfl, _⟩ := declareVar_eq_ok hr
    exact .addVar name r _
  | const ty =>
    obtain ⟨_, value, _, _, _, rfl, _⟩ := declareConst_eq_ok hr
    exact .addConsts name r _
  | structVar id d =>
    obtain ⟨_, values, _, _, rfl, _⟩ := declareStructVar_eq_ok hr
    exact (Adds.addVars name r _).trans (.addStructVar name _ _)
  | structConst id d =>
    obtain ⟨_, values, _, _, rfl, _⟩ := declareStructConst_eq_ok hr
    refine (Adds.addConsts name r (d.scalars name values loc)).trans (.of_symbols
      { Symbols.IsPrefix.refl _ with structConsts := List.prefix_append _ _ } rfl fun c hc => ?_)
    rcases List.mem_append.mp hc with hc | hc
    · exact .inl hc
    · rw [List.mem_singleton.mp hc]
      exact .inr rfl
  | memory =>
    obtain ⟨size, hmemory⟩ := addMemory?_of_declareMemory hr
    exact .addMemory? hmemory
  | untyped value consumed =>
    cases hr
    exact .addConsts name r _
  | proc => exact absurd rfl hproc

/-- What a step does at a place: it lists more strings, adds to the tables, and emits operations for
this place. -/
structure Continues (loc : Location) (r r' : Resolution) : Prop where
  strings : r.strings.texts <+: r'.strings.texts
  settled : r.settled.IsPrefix r'.settled
  ops : ∃ kinds : List OpKind, r'.code.ops = r.code.ops ++ kinds.map (⟨·, loc⟩)

/-- A step that keeps the tables. -/
theorem Continues.of_emit {strings : Lexicon} {blocks : List Block} (kinds : List OpKind)
    (h : r.strings.texts <+: strings.texts) (loc : Location) :
    Continues loc r
      ⟨strings, r.symbols, ⟨r.code.ops ++ kinds.map (⟨·, loc⟩), blocks⟩, r.current⟩ :=
  ⟨h, .refl _, kinds, rfl⟩

theorem Continues.setProcedure {id : Nat} (hid : r.current = some id) (p : Procedure)
    (kind : OpKind) (blocks : List Block) (loc : Location) :
    Continues loc r
      { r.setProcedure id p with code := ⟨r.code.ops ++ [⟨kind, loc⟩], blocks⟩ } where
  strings := List.prefix_refl _
  settled := (Adds.setProcedure p.name hid p).settled
  ops := ⟨[kind], rfl⟩

theorem Continues.declareProc (hr : r.declareProc name loc rest = .ok (r', used)) :
    Continues loc r r' := by
  obtain ⟨_, p, _, _, _, _, _, rfl⟩ := declareProc_eq_ok hr
  refine ⟨List.prefix_refl _, { Symbols.IsPrefix.refl r.symbols with procs := ?_ },
    [.procBegin r.symbols.procs.length], rfl⟩
  simpa [Resolution.settled, Symbols.addProc] using r.settled_procs_isPrefix

theorem Move.continues {t : Token} (h : Move eof r t rest r' used) : Continues t.loc r r' := by
  cases h with
  | literal ht hp => exact .of_emit _ (List.prefix_refl _) t.loc
  | @string text => exact .of_emit [_] (r.strings.intern_isPrefix text) t.loc
  | word ht hm hc => exact .of_emit _ (List.prefix_refl _) t.loc
  | openIf ht hp => exact .of_emit [_] (List.prefix_refl _) t.loc
  | openElse ht hb hk => exact .of_emit [_] (List.prefix_refl _) t.loc
  | openLet ht hp hnames hne => exact .setProcedure (procedure?_eq_some.mp hp).1 _ _ _ _
  | closeIf ht hb hk => exact .of_emit [_] (List.prefix_refl _) t.loc
  | closeElse ht hb hk => exact .of_emit [_] (List.prefix_refl _) t.loc
  | closeLet ht hb hk hp hcount => exact .setProcedure (procedure?_eq_some.mp hp).1 _ _ _ _
  | closeProc ht hb hk =>
    exact ⟨List.prefix_refl _, { Symbols.IsPrefix.refl r.symbols with
      procs := r.settled_procs_isPrefix }, [_], rfl⟩
  | declare ht hm hs hshape hproc hr =>
    have hadds := declareShape_adds hproc hr
    exact ⟨hadds.strings ▸ List.prefix_refl _, hadds.settled, [], by simp [hadds.code]⟩
  | declareProc ht hm hs hshape hr => exact .declareProc hr

namespace Reaches

variable {start : Resolution} {ts : List Token}

/-- From one point of a resolution to a later one, tables and string literals grow. -/
theorem continues (h : Reaches eof start ts r rest) :
    start.strings.texts <+: r.strings.texts ∧ start.settled.IsPrefix r.settled := by
  induction h with
  | start => exact ⟨List.prefix_refl _, .refl _⟩
  | step h hstep ih =>
    have hnext := (step_move hstep).continues
    exact ⟨ih.1.trans hnext.strings, ih.2.trans hnext.settled⟩

/-- From one point of a resolution to a later one, operations are added for the tokens between. -/
theorem ops (h : Reaches eof start ts r rest) :
    ∃ ops, r.code.ops = start.code.ops ++ ops ∧ ∀ op ∈ ops, ∃ t ∈ ts, op.loc = t.loc := by
  induction h with
  | start => exact ⟨[], (List.append_nil _).symm, by simp⟩
  | @step r r' t rest used h hstep ih =>
    obtain ⟨ops, hops, hlocs⟩ := ih
    obtain ⟨kinds, hkinds⟩ := (step_move hstep).continues.ops
    refine ⟨ops ++ kinds.map (⟨·, t.loc⟩), by rw [hkinds, hops, List.append_assoc], ?_⟩
    refine List.forall_mem_append.mpr ⟨hlocs, List.forall_mem_map.mpr fun kind _ => ?_⟩
    exact ⟨t, h.suffix.subset List.mem_cons_self, rfl⟩

end Reaches

end Resolution

end StackEffect
