import StackEffect.Proofs.Declarations
import StackEffect.Proofs.Relocation

/-! # Resolution at other places

Resolution never looks at a place, it only passes places on. So tokens at other places are resolved
to the same operations and tables at other places, or are rejected for the same cause.
-/

namespace StackEffect

/-! ## States at other places -/

def Block.relocate (f : Location → Location) (b : Block) : Block :=
  { b with loc := f b.loc }

def Code.relocate (f : Location → Location) (c : Code) : Code :=
  ⟨c.ops.map (Op.relocate f), c.blocks.map (Block.relocate f)⟩

def Resolution.relocate (f : Location → Location) (r : Resolution) : Resolution :=
  { r with symbols := r.symbols.relocate f, code := r.code.relocate f }

def Meaning.relocate (f : Location → Location) (m : Meaning) : Meaning :=
  { m with declared := m.declared.map f }

def Shape.relocate (f : Location → Location) : Shape → Shape
  | structVar id d => structVar id (d.relocate f)
  | structConst id d => structConst id (d.relocate f)
  | struct => struct
  | var ty => var ty
  | const ty => const ty
  | memory => memory
  | untyped value consumed => untyped value consumed
  | proc => proc

@[simp] theorem Meaning.relocate_mk (f : Location → Location) (ops : List OpKind)
    (declared : Option Location) :
    (⟨ops, declared⟩ : Meaning).relocate f = ⟨ops, declared.map f⟩ := rfl

@[simp] theorem Block.kind_relocate (f : Location → Location) (b : Block) :
    (b.relocate f).kind = b.kind := rfl

section Tokens

variable (f : Location → Location) (sym : Symbols) (ts : List Token)

@[simp] theorem Token.kind_relocate (t : Token) : (t.relocate f).kind = t.kind := rfl

@[simp] theorem Token.loc_relocate (t : Token) : (t.relocate f).loc = f t.loc := rfl

@[simp] theorem Token.type?_relocate (t : Token) :
    (t.relocate f).type? (sym.relocate f) = t.type? sym := by
  obtain ⟨kind, loc⟩ := t
  cases kind with
  | word w => simp [type?, Function.comp_def]
  | keyword | int | bool | ptr | str => rfl

@[simp] theorem signatureTypes_relocate :
    signatureTypes (sym.relocate f) (ts.map (Token.relocate f)) = signatureTypes sym ts := by
  induction ts with
  | nil => rfl
  | cons t ts ih => simp only [List.map_cons, signatureTypes, Token.type?_relocate, ih]

theorem letNames_relocate (loc eof : Location) (names : List String) :
    letNames (f loc) (f eof) names (ts.map (Token.relocate f)) =
      relocateBy f id (letNames loc eof names ts) := by
  induction ts generalizing names with
  | nil => simp [letNames]
  | cons t ts ih =>
    obtain ⟨kind, l⟩ := t
    cases kind with
    | word name => exact ih (names ++ [name])
    | keyword k => cases k <;> rfl
    | int | bool | ptr | str => rfl

end Tokens

namespace Code

variable (f : Location → Location) (c : Code) (loc : Location)

theorem close_relocate :
    (c.relocate f).close (f loc) =
      relocateBy f (Prod.map (Block.relocate f) (Code.relocate f)) (c.close loc) := by
  cases hblocks : c.blocks with
  | nil => simp [close_eq, relocate, hblocks]
  | cons b blocks =>
    have hcloser : closer? (b.relocate f) = closer? b := rfl
    simp [close_eq, relocate, hblocks, hcloser, emitAll, Function.comp_def, Op.relocate]

theorem finish_relocate :
    (c.relocate f).finish (f loc) = relocateBy f (List.map (Op.relocate f)) (c.finish loc) := by
  cases hblocks : c.blocks with
  | nil => simp [finish, relocate, hblocks]
  | cons b blocks => simp [finish, relocate, hblocks, Block.fault, Block.relocate]

end Code

/-! ## Declarations -/

namespace Shape

variable (f : Location → Location) (sym : Symbols) (name : String) (loc eof : Location)
  (ts : List Token)

@[simp] theorem startsConst_relocate :
    startsConst (ts.map (Token.relocate f)) = startsConst ts := by
  simp only [startsConst, ← List.map_take, List.length_map, List.all_map]
  rfl

theorem ofPlain_relocate :
    ofPlain name (f loc) (ts.map (Token.relocate f)) =
      relocateBy f (relocate f) (ofPlain name loc ts) := by
  cases ts with
  | nil => rfl
  | cons t ts =>
    obtain ⟨kind, l⟩ := t
    cases kind with
    | keyword k =>
      cases k with
      | intKw | boolKw | ptrKw =>
        simp only [ofPlain, List.map_cons, Token.relocate, Keyword.scalar?, startsConst_relocate]
        split <;> rfl
      | _ => rfl
    | word | int | bool | ptr | str => rfl

theorem ofColon_relocate :
    ofColon (sym.relocate f) name (f eof) (ts.map (Token.relocate f)) =
      relocateBy f (relocate f) (ofColon sym name eof ts) := by
  cases ts with
  | nil => rfl
  | cons t ts =>
    obtain ⟨kind, l⟩ := t
    cases kind with
    | word w =>
      simp only [ofColon, List.map_cons, Token.relocate, Symbols.findStruct?_relocate,
        startsConst_relocate, Symbols.findConst?_relocate, Option.isSome_map]
      cases sym.findStruct? w with
      | none =>
        simp only [Option.map_none]
        split <;> rfl
      | some found =>
        simp only [Option.map_some, Prod.map]
        split <;> rfl
    | keyword | int | bool | ptr | str => rfl

theorem ofColons_relocate :
    ofColons (sym.relocate f) (f eof) (ts.map (Token.relocate f)) =
      (ofColons sym eof ts).relocate f := by
  unfold ofColons
  rw [Folded.ofTokens_relocate]
  rcases Folded.ofTokens sym eof ts with e | ⟨_ | ⟨v, _ | ⟨w, vs⟩⟩, consumed⟩ <;> rfl

theorem classify_relocate :
    classify (sym.relocate f) name (f loc) (f eof) (ts.map (Token.relocate f)) =
      relocateBy f (relocate f) (classify sym name loc eof ts) := by
  have hcolons : ((ts.map (Token.relocate f)).takeWhile Token.isColon).length =
      (ts.takeWhile Token.isColon).length := by
    rw [List.takeWhile_map, List.length_map]
    rfl
  unfold classify
  rw [hcolons]
  split
  · exact ofPlain_relocate f name loc ts
  · rw [← List.map_drop]
    exact ofColon_relocate f sym name eof (ts.drop 1)
  · rw [← List.map_drop, ofColons_relocate]
    rfl
  · rw [List.getElem?_map]
    cases ts[2]? <;> rfl

end Shape

section Values

variable (f : Location → Location) (sym : Symbols) (what : String) (loc eof : Location)

theorem Symbols.checkType_relocate (v : Value) (expected : Ty) :
    (sym.relocate f).checkType v expected what (f loc) =
      relocateBy f id (sym.checkType v expected what loc) := by
  unfold checkType
  split
  · rfl
  · simp

theorem mapM_relocate {α : Type} {k k' : α → Except Fault Value}
    (hk : ∀ a, k' a = relocateBy f id (k a)) (as : List α) :
    as.mapM k' = relocateBy f id (as.mapM k) := by
  induction as with
  | nil => rfl
  | cons a as ih =>
    rw [List.mapM_cons, List.mapM_cons, hk, ih]
    refine relocateBy_bind (fun b => ?_) _
    refine relocateBy_bind (fun bs => ?_) _
    rfl

theorem Symbols.memberValues_relocate (d : StructDef) (folded : Folded) (mayElide : Bool) :
    (sym.relocate f).memberValues (d.relocate f) folded mayElide what (f loc) =
      relocateBy f id (sym.memberValues d folded mayElide what loc) := by
  unfold memberValues
  rw [Folded.expect_relocate]
  refine relocateBy_bind (fun found => ?_) _
  cases found with
  | none => rfl
  | some values => exact mapM_relocate f (fun _ => checkType_relocate f sym _ loc _ _) _

@[simp] theorem StructDef.scalars_relocate (d : StructDef) (owner : String) (values : List Value) :
    (d.relocate f).scalars owner values (f loc) =
      (d.scalars owner values loc).map (Scalar.relocate f) := by
  simp [scalars, Function.comp_def, Scalar.relocate, relocate]

theorem structMembers_relocate (name : String) (members : List Member) (count : Nat)
    (ts : List Token) :
    structMembers (sym.relocate f) name (f loc) (f eof) members count (ts.map (Token.relocate f)) =
      relocateBy f id (structMembers sym name loc eof members count ts) := by
  fun_induction structMembers sym name loc eof members count ts with
  | case1 => simp [structMembers]
  | case2 members count t ts ht => simp [structMembers, ht]
  | case3 members count t ts m ht hdup => simp [structMembers, ht, hdup]
  | case4 members count t m ht hnew => simp [structMembers, ht, hnew]
  | case5 members count t m ht hnew u us hty => simp [structMembers, ht, hnew, hty]
  | case6 members count t m ht hnew u ty hty plain ih =>
    rw [← ih, List.map_cons, List.map_cons, structMembers]
    simp [ht, hnew, hty, plain]
  | case7 members count t m ht hnew u ty hty plain d ds hd ih =>
    rw [← ih, List.map_cons, List.map_cons, List.map_cons, structMembers]
    simp [ht, hnew, hty, hd, plain]
  | case8 members count t m ht hnew u ty hty d ds v hd given hdefault ih =>
    rw [← ih, List.map_cons, List.map_cons, List.map_cons, structMembers]
    simp [ht, hnew, hty, hd, given, hdefault]
  | case9 members count t m ht hnew u ty hty d ds v hd hdefault =>
    rw [List.map_cons, List.map_cons, List.map_cons, structMembers]
    simp [ht, hnew, hty, hd, hdefault]
  | case10 members count t ts hend hword =>
    rw [List.map_cons, structMembers]
    obtain ⟨kind, l⟩ := t
    cases kind with
    | keyword k =>
      cases k with
      | endKw => exact absurd rfl hend
      | _ => rfl
    | word m => exact absurd rfl (hword m)
    | int | bool | ptr | str => rfl

end Values

@[simp] theorem Memory.reserve?_relocate (f : Location → Location) (m : Memory) (name : String)
    (bytes : Nat) (loc : Location) :
    (m.relocate f).reserve? name bytes (f loc) =
      (m.reserve? name bytes loc).map (Memory.relocate f) := by
  unfold reserve?
  cases roundToCell? bytes with
  | none => rfl
  | some size =>
    by_cases hfits : m.size + size ≤ byteLimit <;> simp [hfits, relocate, Region.relocate]

namespace Resolution

variable (f : Location → Location) (r : Resolution)

def relocateUsed (f : Location → Location) (next : Resolution × Nat) : Resolution × Nat :=
  (next.1.relocate f, next.2)

theorem symbols_relocate : (r.relocate f).symbols = r.symbols.relocate f := rfl

@[simp] theorem procedure?_relocate :
    (r.relocate f).procedure? = r.procedure?.map (Prod.map id (Procedure.relocate f)) := by
  cases hid : r.current with
  | none => simp [procedure?, relocate, hid]
  | some id =>
    cases hp : r.symbols.procs[id]? <;> simp [procedure?, relocate, hid, Symbols.relocate, hp]

theorem requireProcedure_relocate (what : String) (loc : Location) :
    (r.relocate f).requireProcedure what (f loc) =
      relocateBy f (Prod.map id (Procedure.relocate f)) (r.requireProcedure what loc) := by
  unfold requireProcedure
  rw [procedure?_relocate]
  cases r.procedure? <;> rfl

@[simp] theorem setProcedure_relocate (id : Nat) (p : Procedure) :
    (r.relocate f).setProcedure id (p.relocate f) = (r.setProcedure id p).relocate f := by
  have hprocs : (r.symbols.procs.map (Procedure.relocate f)).modify id (fun _ => p.relocate f) =
      (r.symbols.procs.modify id fun _ => p).map (Procedure.relocate f) := by
    ext j : 1
    simp only [List.getElem?_modify, List.getElem?_map]
    by_cases hj : id = j <;> cases r.symbols.procs[j]? <;> simp [hj]
  simp [setProcedure, Symbols.modifyProc, relocate, Symbols.relocate, hprocs]

theorem setBindings_relocate (id : Nat) (p : Procedure) (bindings : List String) :
    (r.relocate f).setProcedure id { p.relocate f with bindings := bindings } =
      (r.setProcedure id { p with bindings := bindings }).relocate f :=
  setProcedure_relocate f r id { p with bindings := bindings }

@[simp] theorem emitAll_relocate (kinds : List OpKind) (loc : Location) :
    (r.relocate f).emitAll kinds (f loc) = (r.emitAll kinds loc).relocate f := by
  simp [emitAll, relocate, Code.emitAll, Code.relocate, Function.comp_def, Op.relocate]

theorem addVar_relocate (v : Scalar) :
    (r.relocate f).addVar (v.relocate f) = Prod.map id (relocate f) (r.addVar v) := by
  unfold addVar
  rw [procedure?_relocate]
  cases r.procedure? with
  | none => simp [relocate, Symbols.relocate, Symbols.addGlobal]
  | some found =>
    have hadded : (found.2.relocate f).addLocal (v.relocate f) =
        ((found.2.addLocal v).1, (found.2.addLocal v).2.relocate f) := by
      simp [Procedure.addLocal, Procedure.relocate]
    simp [hadded]

theorem addVars_relocate (vs : List Scalar) :
    (r.relocate f).addVars (vs.map (Scalar.relocate f)) =
      Prod.map id (relocate f) (r.addVars vs) := by
  induction vs generalizing r with
  | nil => rfl
  | cons v vs ih =>
    simp only [List.map_cons, addVars, addVar_relocate, Prod.map, id_eq, ih]

theorem addStructVar_relocate (v : Aggregate) :
    (r.relocate f).addStructVar (v.relocate f) = (r.addStructVar v).relocate f := by
  unfold addStructVar
  rw [procedure?_relocate]
  cases r.procedure? with
  | none => simp [relocate, Symbols.relocate, Symbols.addGlobalStruct]
  | some found =>
    have hadded : ((found.2.relocate f).addLocalStruct (v.relocate f)).2 =
        (found.2.addLocalStruct v).2.relocate f := by
      simp [Procedure.addLocalStruct, Procedure.relocate]
    simp [hadded]

theorem addConsts_relocate (cs : List Scalar) :
    (r.relocate f).addConsts (cs.map (Scalar.relocate f)) =
      Prod.map id (relocate f) (r.addConsts cs) := by
  induction cs generalizing r with
  | nil => rfl
  | cons c cs ih =>
    have hadded : ({ r.relocate f with
        symbols := ((r.relocate f).symbols.addConst (c.relocate f)).2 } : Resolution) =
        ({ r with symbols := (r.symbols.addConst c).2 } : Resolution).relocate f := by
      simp [relocate, Symbols.relocate, Symbols.addConst]
    simp only [List.map_cons, addConsts, hadded, ih]
    simp [Symbols.addConst, relocate, Symbols.relocate]

theorem addMemory?_relocate (name : String) (size : Nat) (loc : Location) :
    (r.relocate f).addMemory? name size (f loc) =
      (r.addMemory? name size loc).map (relocate f) := by
  unfold addMemory?
  rw [procedure?_relocate]
  cases r.procedure? with
  | none =>
    have hreserve := Memory.reserve?_relocate f r.symbols.memory name size loc
    simp only [Option.map_none, Symbols.addMemory?, relocate, Symbols.relocate, hreserve,
      Option.map_map, Function.comp_def]
  | some found =>
    have hreserve := Memory.reserve?_relocate f found.2.memory name size loc
    simp only [Option.map_some, Prod.map, id_eq, Procedure.addMemory?_eq, Procedure.relocate, hreserve,
      Option.map_map, Function.comp_def]
    congr 1
    funext m
    exact setProcedure_relocate f r found.1 { found.2 with memory := m }

@[simp] theorem memorySpace_relocate : (r.relocate f).memorySpace = r.memorySpace := by
  simp [memorySpace]

variable (eof : Location) (name : String) (loc : Location) (rest : List Token)

theorem fold_relocate (skip : Nat) :
    (r.relocate f).fold (f eof) (rest.map (Token.relocate f)) skip =
      relocateBy f id (r.fold eof rest skip) := by
  unfold fold
  rw [← List.map_drop]
  exact Folded.ofTokens_relocate f r.symbols eof (rest.drop skip)

theorem initialValue_relocate (folded : Folded) (ty : Ty) (what : String) :
    (r.relocate f).initialValue (f loc) folded ty what =
      relocateBy f id (r.initialValue loc folded ty what) := by
  unfold initialValue
  split
  · rfl
  · rw [Folded.single_relocate]
    exact relocateBy_bind (fun v => Symbols.checkType_relocate f r.symbols what loc v ty) _

theorem declareVar_relocate (ty : Ty) :
    (r.relocate f).declareVar (f eof) name (f loc) (rest.map (Token.relocate f)) ty =
      relocateBy f (relocateUsed f) (r.declareVar eof name loc rest ty) := by
  unfold declareVar
  rw [fold_relocate]
  refine relocateBy_bind (fun folded => ?_) _
  simp only [id_eq, initialValue_relocate]
  refine relocateBy_bind (fun value => ?_) _
  have hadded := addVar_relocate f r ⟨name, ⟨value.bits, ty⟩, loc⟩
  simp only [id_eq, Scalar.relocate] at hadded ⊢
  rw [hadded]
  rfl

theorem declareConst_relocate (ty : Ty) :
    (r.relocate f).declareConst (f eof) name (f loc) (rest.map (Token.relocate f)) ty =
      relocateBy f (relocateUsed f) (r.declareConst eof name loc rest ty) := by
  unfold declareConst
  rw [fold_relocate]
  refine relocateBy_bind (fun folded => ?_) _
  simp only [id_eq, Folded.single_relocate]
  refine relocateBy_bind (fun single => ?_) _
  rw [id_eq, symbols_relocate,
    Symbols.checkType_relocate]
  refine relocateBy_bind (fun value => ?_) _
  have hadded := addConsts_relocate f r [⟨name, ⟨value.bits, ty⟩, loc⟩]
  simp only [List.map_cons, List.map_nil, id_eq, Scalar.relocate] at hadded ⊢
  rw [hadded]
  rfl

theorem declareUntyped_relocate (value : Value) (consumed : Nat) :
    (r.relocate f).declareUntyped name (f loc) value consumed =
      relocateUsed f (r.declareUntyped name loc value consumed) := by
  have hadded := addConsts_relocate f r [⟨name, value, loc⟩]
  simp only [List.map_cons, List.map_nil, Scalar.relocate] at hadded
  rw [declareUntyped, hadded]
  rfl

theorem declareStructVar_relocate (id : Nat) (d : StructDef) :
    (r.relocate f).declareStructVar (f eof) name (f loc) (rest.map (Token.relocate f)) id
        (d.relocate f) =
      relocateBy f (relocateUsed f) (r.declareStructVar eof name loc rest id d) := by
  unfold declareStructVar
  rw [fold_relocate]
  refine relocateBy_bind (fun folded => ?_) _
  rw [id_eq, symbols_relocate,
    Symbols.memberValues_relocate]
  refine relocateBy_bind (fun values => ?_) _
  rw [id_eq, StructDef.scalars_relocate, addVars_relocate]
  have hadded := addStructVar_relocate f (r.addVars (d.scalars name values loc)).2
    ⟨name, id, (r.addVars (d.scalars name values loc)).1, loc⟩
  simp only [Aggregate.relocate] at hadded
  simp only [Prod.map, id_eq, hadded]
  rfl

theorem declareStructConst_relocate (id : Nat) (d : StructDef) :
    (r.relocate f).declareStructConst (f eof) name (f loc) (rest.map (Token.relocate f)) id
        (d.relocate f) =
      relocateBy f (relocateUsed f) (r.declareStructConst eof name loc rest id d) := by
  unfold declareStructConst
  rw [fold_relocate]
  refine relocateBy_bind (fun folded => ?_) _
  rw [id_eq, symbols_relocate,
    Symbols.memberValues_relocate]
  refine relocateBy_bind (fun values => ?_) _
  rw [id_eq, StructDef.scalars_relocate, addConsts_relocate]
  simp [relocateUsed, relocate, Symbols.relocate, Symbols.addStructConst, Aggregate.relocate,
    pure_eq_ok]

theorem declareMemory_relocate :
    (r.relocate f).declareMemory (f eof) name (f loc) (rest.map (Token.relocate f)) =
      relocateBy f (relocateUsed f) (r.declareMemory eof name loc rest) := by
  unfold declareMemory
  rw [fold_relocate]
  refine relocateBy_bind (fun folded => ?_) _
  simp only [id_eq, Folded.single_relocate]
  refine relocateBy_bind (fun single => ?_) _
  rw [id_eq, symbols_relocate,
    Symbols.checkType_relocate]
  refine relocateBy_bind (fun value => ?_) _
  simp only [id_eq, addMemory?_relocate, memorySpace_relocate]
  split
  · cases r.addMemory? name value.bits.toInt.toNat loc <;> rfl
  · rfl

theorem declareStruct_relocate :
    (r.relocate f).declareStruct (f eof) name (f loc) (rest.map (Token.relocate f)) =
      relocateBy f (relocateUsed f) (r.declareStruct eof name loc rest) := by
  unfold declareStruct
  rw [procedure?_relocate]
  cases r.procedure? with
  | some found => simp [Procedure.relocate]
  | none =>
    simp only [Option.map_none]
    rw [← List.map_drop, symbols_relocate,
      structMembers_relocate]
    refine relocateBy_bind (fun found => ?_) _
    simp only [id_eq]
    split
    · rfl
    · simp [relocateUsed, relocate, Symbols.relocate, Symbols.addStruct, StructDef.relocate]

@[simp] theorem procOuts_relocate (sym : Symbols) (ts : List Token) :
    procOuts (sym.relocate f) (ts.map (Token.relocate f)) = procOuts sym ts := by
  cases ts with
  | nil => rfl
  | cons t ts =>
    obtain ⟨kind, l⟩ := t
    cases kind with
    | keyword k =>
      cases k with
      | arrow => simp [procOuts, Token.relocate]
      | _ => rfl
    | word | int | bool | ptr | str => rfl

theorem declareProc_relocate :
    (r.relocate f).declareProc name (f loc) (rest.map (Token.relocate f)) =
      relocateBy f (relocateUsed f) (r.declareProc name loc rest) := by
  unfold declareProc
  rw [procedure?_relocate]
  cases r.procedure? with
  | some found => simp [Procedure.relocate]
  | none =>
    simp only [Option.map_none]
    rw [symbols_relocate, ← List.map_drop,
      signatureTypes_relocate, ← List.map_drop, procOuts_relocate]
    simp [relocateUsed, relocate, Symbols.relocate, Symbols.addProc, Procedure.relocate,
      Memory.relocate, Code.relocate, Code.openBlock, Code.emit, Op.relocate, Block.relocate]

theorem declareShape_relocate (shape : Shape) :
    (r.relocate f).declareShape (f eof) name (f loc) (rest.map (Token.relocate f))
        (shape.relocate f) =
      relocateBy f (relocateUsed f) (r.declareShape eof name loc rest shape) := by
  cases shape with
  | struct => exact declareStruct_relocate f r eof name loc rest
  | var ty => exact declareVar_relocate f r eof name loc rest ty
  | const ty => exact declareConst_relocate f r eof name loc rest ty
  | structVar id d => exact declareStructVar_relocate f r eof name loc rest id d
  | structConst id d => exact declareStructConst_relocate f r eof name loc rest id d
  | memory => exact declareMemory_relocate f r eof name loc rest
  | untyped value consumed =>
    exact congrArg Except.ok (declareUntyped_relocate f r name loc value consumed)
  | proc => exact declareProc_relocate f r name loc rest

theorem declare_relocate :
    (r.relocate f).declare (f eof) name (f loc) (rest.map (Token.relocate f)) =
      relocateBy f (relocateUsed f) (r.declare eof name loc rest) := by
  unfold declare
  rw [symbols_relocate, Symbols.findStruct?_relocate]
  cases r.symbols.findStruct? name with
  | some found => simp [StructDef.relocate]
  | none =>
    simp only [Option.map_none, Shape.classify_relocate]
    exact relocateBy_bind (fun shape => declareShape_relocate f r eof name loc rest shape) _

/-! ## Words -/

@[simp] theorem structConst?_relocate (text : String) :
    (r.relocate f).structConst? text = (r.structConst? text).map (Meaning.relocate f) := by
  unfold structConst?
  rw [symbols_relocate, Symbols.findStructConst?_relocate]
  cases r.symbols.findStructConst? text with
  | none => rfl
  | some found => simp

@[simp] theorem binding?_relocate (text : String) :
    (r.relocate f).binding? text = (r.binding? text).map (Meaning.relocate f) := by
  unfold binding?
  rw [procedure?_relocate]
  cases r.procedure? with
  | none => rfl
  | some found => simp [Procedure.bindingDepth?, Function.comp_def]

@[simp] theorem region?_relocate (text : String) :
    (r.relocate f).region? text = (r.region? text).map (Meaning.relocate f) := by
  unfold region?
  rw [procedure?_relocate, symbols_relocate, Symbols.findMemory?_relocate]
  cases r.procedure? with
  | none => simp [Function.comp_def]
  | some found =>
    simp only [Option.map_some, Option.bind_some, Prod.map, id_eq, Procedure.findMemory?_relocate]
    simp [Option.map_or, Function.comp_def]

@[simp] theorem call?_relocate (text : String) :
    (r.relocate f).call? text = (r.call? text).map (Meaning.relocate f) := by
  simp [call?, symbols_relocate, Function.comp_def]

@[simp] theorem const?_relocate (text : String) :
    (r.relocate f).const? text = (r.const? text).map (Meaning.relocate f) := by
  simp [const?, symbols_relocate, Function.comp_def]

@[simp] theorem members_relocate (s : Symbols) (id : Nat) :
    (s.relocate f).members id = s.members id := by
  cases hd : s.structs[id]? <;> simp [Symbols.members, hd]

@[simp] theorem structOps_relocate (access : Access) (scope : Scope) (v : Aggregate)
    (members : List Member) :
    access.structOps scope (v.relocate f) members = access.structOps scope v members := rfl

@[simp] theorem localVar?_relocate (access : Access) :
    (r.relocate f).localVar? access name = (r.localVar? access name).map (Meaning.relocate f) := by
  unfold localVar?
  rw [procedure?_relocate]
  cases r.procedure? with
  | none => rfl
  | some found =>
    simp [symbols_relocate, Option.map_or, Function.comp_def]

@[simp] theorem globalVar?_relocate (access : Access) :
    (r.relocate f).globalVar? access name =
      (r.globalVar? access name).map (Meaning.relocate f) := by
  simp [globalVar?, symbols_relocate, Option.map_or, Function.comp_def]

theorem lookup_relocate (text : String) :
    (r.relocate f).lookup text (f loc) =
      relocateBy f (Option.map (Meaning.relocate f)) (r.lookup text loc) := by
  have hmember : memberAccess? text = (memberAccess? text).map (Meaning.relocate f) := by
    simp [memberAccess?, Function.comp_def]
  have hprimitive : primitive? text = (primitive? text).map (Meaning.relocate f) := by
    simp [primitive?, Function.comp_def]
  have hearly : ((r.relocate f).structConst? text).or
      ((memberAccess? text).or (((r.relocate f).binding? text).or (primitive? text))) =
      ((r.structConst? text).or
        ((memberAccess? text).or ((r.binding? text).or (primitive? text)))).map
          (Meaning.relocate f) := by
    simp only [Option.map_or, structConst?_relocate, binding?_relocate, ← hmember, ← hprimitive]
  unfold lookup
  rw [hearly]
  cases (r.structConst? text).or
    ((memberAccess? text).or ((r.binding? text).or (primitive? text))) with
  | some m => rfl
  | none =>
    simp only [Option.map_none]
    cases stripSigil? '#' text with
    | some target =>
      simp only [symbols_relocate, Symbols.castTarget?_relocate]
      cases r.symbols.castTarget? target <;> rfl
    | none => simp [namedVar?, Option.map_or]

/-! ## Steps -/

theorem openElse_relocate :
    (r.relocate f).openElse (f loc) = relocateBy f (relocate f) (r.openElse loc) := by
  unfold openElse
  rw [Code.openElse_eq, Code.openElse_eq]
  cases hblocks : r.code.blocks with
  | nil => simp [relocate, Code.relocate, hblocks]
  | cons b blocks =>
    simp only [relocate, Code.relocate, hblocks, List.map_cons]
    by_cases hk : b.kind = .ifBlock
    · simp [hk, Block.relocate, relocate, Code.relocate, Op.relocate, pure_eq_ok]
    · simp [hk, Block.relocate, Block.fault]

theorem openLet_relocate :
    (r.relocate f).openLet (f loc) (f eof) (rest.map (Token.relocate f)) =
      relocateBy f (relocateUsed f) (r.openLet loc eof rest) := by
  unfold openLet
  rw [requireProcedure_relocate]
  refine relocateBy_bind (fun found => ?_) _
  simp only [letNames_relocate]
  refine relocateBy_bind (fun names => ?_) _
  simp only [Prod.map, id_eq, Procedure.bindings_relocate, setBindings_relocate]
  split
  · rfl
  · simp [relocateUsed, relocate, Code.relocate, Code.openBlock, Code.emit, Op.relocate,
      Block.relocate]

theorem closeLet_relocate (b : Block) (count : Nat) :
    (r.relocate f).closeLet (b.relocate f) count (f loc) =
      relocateBy f (relocate f) (r.closeLet b count loc) := by
  unfold closeLet
  rw [requireProcedure_relocate]
  refine relocateBy_bind (fun found => ?_) _
  simp only [Prod.map, id_eq, Procedure.bindings_relocate, setBindings_relocate, emitAll_relocate]
  split
  · simp [Block.relocate]
  · rfl

theorem closeProc_relocate (id : Nat) :
    (r.relocate f).closeProc id (f loc) = (r.closeProc id loc).relocate f := by
  have hframe : ((r.relocate f).symbols.procs[id]?).elim 0 (·.memory.size) =
      (r.symbols.procs[id]?).elim 0 (·.memory.size) := by
    rw [symbols_relocate, Symbols.getElem?_procs_relocate]
    cases r.symbols.procs[id]? <;> rfl
  simp only [closeProc, hframe, emitAll_relocate]
  rfl

theorem closeBlock_relocate :
    (r.relocate f).closeBlock (f loc) = relocateBy f (relocate f) (r.closeBlock loc) := by
  unfold closeBlock
  rw [show (r.relocate f).code = r.code.relocate f from rfl, Code.close_relocate]
  refine relocateBy_bind (fun closed => ?_) _
  obtain ⟨b, code⟩ := closed
  have hstate : ({ r.relocate f with code := code.relocate f } : Resolution) =
      ({ r with code := code } : Resolution).relocate f := rfl
  simp only [Prod.map, Block.kind_relocate, hstate, closeProc_relocate, closeLet_relocate]
  cases b.kind <;> rfl

theorem stay_relocate (x : Except Fault Resolution) :
    (relocateBy f (relocate f) x).map (fun r => (r, 0)) =
      relocateBy f (relocateUsed f) (x.map fun r => (r, 0)) :=
  relocateBy_map (by simp [relocateUsed]) x

theorem literal_relocate (kind : OpKind) :
    (r.relocate f).literal kind (f loc) = relocateBy f (relocate f) (r.literal kind loc) := by
  unfold literal
  rw [requireProcedure_relocate]
  refine relocateBy_bind (fun found => ?_) _
  simp [pure_eq_ok]

theorem stringLiteral_relocate (text : String) :
    (r.relocate f).stringLiteral text (f loc) =
      relocateBy f (relocate f) (r.stringLiteral text loc) := by
  unfold stringLiteral
  rw [requireProcedure_relocate]
  refine relocateBy_bind (fun found => ?_) _
  exact congrArg Except.ok
    (emitAll_relocate f { r with strings := (r.strings.intern text).1 } _ loc)

theorem openIf_relocate :
    (r.relocate f).openIf (f loc) = relocateBy f (relocate f) (r.openIf loc) := by
  unfold openIf
  rw [requireProcedure_relocate]
  refine relocateBy_bind (fun found => ?_) _
  simp [pure_eq_ok, relocate, Code.relocate, Code.openBlock, Code.emit, Op.relocate,
    Block.relocate]

theorem keyword_relocate (k : Keyword) :
    (r.relocate f).keyword k (f loc) (f eof) (rest.map (Token.relocate f)) =
      relocateBy f (relocateUsed f) (r.keyword k loc eof rest) := by
  cases k with
  | ifKw => simp only [keyword, openIf_relocate, stay_relocate]
  | elseKw => simp only [keyword, openElse_relocate, stay_relocate]
  | endKw => simp only [keyword, closeBlock_relocate, stay_relocate]
  | letKw => exact openLet_relocate f r eof loc rest
  | structKw | intKw | boolKw | ptrKw | arrow | colon => rfl

theorem usedOutside_relocate (text : String) (m : Meaning) :
    usedOutside text (f loc) (m.relocate f) = (usedOutside text loc m).relocate f := by
  obtain ⟨ops, declared⟩ := m
  cases declared <;> simp [usedOutside, Meaning.relocate]

theorem word_relocate (text : String) :
    (r.relocate f).word text (f loc) (f eof) (rest.map (Token.relocate f)) =
      relocateBy f (relocateUsed f) (r.word text loc eof rest) := by
  unfold word
  rw [lookup_relocate]
  refine relocateBy_bind (fun found => ?_) _
  cases found with
  | none => exact declare_relocate f r eof text loc rest
  | some m =>
    simp only [Option.map_some, usedOutside_relocate, emitAll_relocate]
    have hcurrent : (r.relocate f).current = r.current := rfl
    rw [hcurrent]
    split <;> rfl

theorem step_relocate (t : Token) :
    (r.relocate f).step (f eof) (t.relocate f) (rest.map (Token.relocate f)) =
      relocateBy f (relocateUsed f) (r.step eof t rest) := by
  obtain ⟨kind, loc⟩ := t
  cases kind with
  | int | bool | ptr => simp only [step, Token.relocate, literal_relocate, stay_relocate]
  | str => simp only [step, Token.relocate, stringLiteral_relocate, stay_relocate]
  | keyword k => exact keyword_relocate f r eof loc rest k
  | word text => exact word_relocate f r eof loc rest text

theorem run_relocate (skip : Nat) (ts : List Token) :
    run (f eof) skip (r.relocate f) (ts.map (Token.relocate f)) =
      relocateBy f (relocate f) (run eof skip r ts) := by
  induction ts generalizing skip r with
  | nil => cases skip <;> rfl
  | cons t ts ih =>
    cases skip with
    | succ skip => exact ih r skip
    | zero =>
      simp only [List.map_cons, run, step_relocate]
      cases r.step eof t ts with
      | ok next => exact ih next.1 next.2
      | error e => rfl

end Resolution

/-- Tokens at other places are resolved to the same program at other places. -/
theorem Program.ofTokens_relocate (f : Location → Location) (s : TokenStream) :
    ofTokens (s.relocate f) = relocateBy f (Program.relocate f) (ofTokens s) := by
  unfold ofTokens
  have hrun := Resolution.run_relocate f {} s.eof 0 s.tokens
  rw [show (({} : Resolution).relocate f) = {} from rfl] at hrun
  rw [TokenStream.relocate, hrun]
  refine relocateBy_bind (fun r => ?_) _
  simp only [show (r.relocate f).code = r.code.relocate f from rfl, Code.finish_relocate]
  refine relocateBy_bind (fun ops => ?_) _
  rfl

end StackEffect
