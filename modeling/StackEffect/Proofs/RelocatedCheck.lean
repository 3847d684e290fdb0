import StackEffect.Proofs.Relocation
import StackEffect.Proofs.Weakening

/-! # Checking relocated programs

The checker keeps the places of values and of open branches for its remarks only. So a program at
other places is checked with the same outcome: the same offsets and contracts, or the same
rejection at other places.
-/

namespace StackEffect

/-! ## Stacks -/

def Frame.relocate (f : Location → Location) (v : Frame) : Frame :=
  { v with loc := f v.loc }

@[simp] theorem Frame.ty_relocate (f : Location → Location) (v : Frame) :
    (v.relocate f).ty = v.ty := rfl

@[simp] theorem Frame.loc_relocate (f : Location → Location) (v : Frame) :
    (v.relocate f).loc = f v.loc := rfl

namespace TypeStack

def relocate (f : Location → Location) (s : TypeStack) : TypeStack :=
  { s with frames := s.frames.map (Frame.relocate f) }

variable (f : Location → Location) (s : TypeStack)

@[simp] theorem height_relocate : (s.relocate f).height = s.height := rfl

@[simp] theorem low_relocate : (s.relocate f).low = s.low := rfl

@[simp] theorem length_frames_relocate : (s.relocate f).frames.length = s.frames.length :=
  List.length_map _

@[simp] theorem types_relocate : (s.relocate f).types = s.types := by
  simp [types, relocate, Function.comp_def]

theorem resetCounters_relocate :
    (s.relocate f).resetCounters = s.resetCounters.relocate f := rfl

theorem seed_relocate (types : List Ty) (loc : Location) :
    seed types (f loc) = (seed types loc).relocate f := by
  simp [seed, relocate, Frame.relocate, Function.comp_def]

theorem pushAll_relocate (frames : List Frame) :
    (s.relocate f).pushAll (frames.map (Frame.relocate f)) = (s.pushAll frames).relocate f := by
  induction frames generalizing s with
  | nil => rfl
  | cons v frames ih => exact ih (s.push v)

theorem pop?_relocate :
    (s.relocate f).pop? = s.pop?.map (Prod.map (Frame.relocate f) (relocate f)) := by
  obtain ⟨frames, height, low⟩ := s
  cases frames <;> rfl

theorem popMany?_relocate (count : Nat) :
    popMany? count (s.relocate f) =
      (popMany? count s).map (Prod.map (List.map (Frame.relocate f)) (relocate f)) := by
  induction count generalizing s with
  | zero => rfl
  | succ count ih =>
    simp only [popMany?, pop?_relocate]
    cases s.pop? with
    | none => rfl
    | some popped =>
      simp only [Option.map_some, Prod.map, ih]
      cases popMany? count popped.2 <;> simp

end TypeStack

/-! ## States -/

def BranchEnd.relocate (f : Location → Location) (e : BranchEnd) : BranchEnd :=
  { e with loc := f e.loc }

def Branch.relocate (f : Location → Location) (b : Branch) : Branch :=
  { b with
    loc := f b.loc
    entry := b.entry.relocate f
    bindings := b.bindings.map (Frame.relocate f)
    thenEnd := b.thenEnd.map (BranchEnd.relocate f) }

def CheckState.relocate (f : Location → Location) (st : CheckState) : CheckState :=
  { st with
    stack := st.stack.relocate f
    bindings := st.bindings.map (Frame.relocate f)
    branches := st.branches.map (Branch.relocate f) }

namespace Symbols

variable (f : Location → Location) (sym : Symbols) (loc : Location)

theorem procAt_relocate (id : Nat) :
    (sym.relocate f).procAt id (f loc) =
      relocateBy f (Procedure.relocate f) (sym.procAt id loc) := by
  unfold procAt
  rw [getElem?_procs_relocate]
  cases sym.procs[id]? <;> rfl

theorem expectType_relocate (v : Frame) (expected : Ty) (what : String) :
    (sym.relocate f).expectType (v.relocate f) expected what (f loc) =
      relocateBy f id (sym.expectType v expected what loc) := by
  unfold expectType
  by_cases hty : v.ty = expected
  · simp [hty]
  · simp [hty]

@[simp] theorem memberOffset?_relocate (ty : Ty) (name : String) :
    (sym.relocate f).memberOffset? ty name = sym.memberOffset? ty name := by
  cases ty with
  | struct id =>
    simp only [memberOffset?, getElem?_structs_relocate]
    cases sym.structs[id]? <;> rfl
  | int | bool | ptr | any => rfl

theorem checkOperands_relocate (what : String) (shared : Option Frame)
    (l : List (Operand × Frame)) :
    (sym.relocate f).checkOperands what (f loc) (shared.map (Frame.relocate f))
        (l.map (Prod.map id (Frame.relocate f))) =
      relocateBy f (Option.map (Frame.relocate f)) (sym.checkOperands what loc shared l) := by
  fun_induction checkOperands sym what loc shared l with
  | case1 => rfl
  | case2 _ _ _ ih => exact ih
  | case3 shared ty v rest ih =>
    simp only [List.map_cons, Prod.map, id_eq, checkOperands, expectType_relocate]
    refine relocateBy_bind (fun _ => ?_) _
    exact ih
  | case4 _ _ ih => exact ih
  | case5 first v rest hty ih => simpa [checkOperands, hty] using ih
  | case6 first v rest hty a b => simp [checkOperands, hty, a, b]

theorem checkArguments_relocate (p : Procedure) (wanted : List Ty) (frames : List Frame) :
    (sym.relocate f).checkArguments (p.relocate f) (f loc) wanted
        (frames.map (Frame.relocate f)) =
      relocateBy f id (sym.checkArguments p loc wanted frames) := by
  induction wanted generalizing frames with
  | nil => rfl
  | cons want wanted ih =>
    cases frames with
    | nil => rfl
    | cons v frames =>
      simp only [List.map_cons, checkArguments, Frame.ty_relocate]
      by_cases hty : v.ty = want
      · simp only [hty, if_true, ih]
      · simp [hty]

end Symbols

theorem Outcome.frame?_relocate (f : Location → Location) (inputs : List Frame)
    (shared : Option Frame) (loc : Location) (out : Outcome) :
    out.frame? (inputs.map (Frame.relocate f)) (shared.map (Frame.relocate f)) (f loc) =
      (out.frame? inputs shared loc).map (Frame.relocate f) := by
  cases out with
  | exact ty => rfl
  | same => cases shared <;> rfl
  | input i => exact List.getElem?_map

namespace CheckState

variable (f : Location → Location) (sym : Symbols) (st : CheckState) (loc : Location)

/-! ## Operations -/

theorem pop_relocate (count : Nat) (what : String) :
    (st.relocate f).pop count what (f loc) =
      relocateBy f (Prod.map (List.map (Frame.relocate f)) (relocate f))
        (st.pop count what loc) := by
  unfold pop
  simp only [relocate, TypeStack.popMany?_relocate, TypeStack.length_frames_relocate]
  cases TypeStack.popMany? count st.stack <;> rfl

theorem popOne_relocate (what : String) :
    (st.relocate f).popOne what (f loc) =
      relocateBy f (Prod.map (Frame.relocate f) (relocate f)) (st.popOne what loc) := by
  unfold popOne
  simp only [relocate, TypeStack.pop?_relocate]
  cases st.stack.pop? <;> rfl

theorem push_relocate (types : List Ty) :
    (st.relocate f).push types (f loc) = (st.push types loc).relocate f := by
  have hframes : types.map (⟨·, f loc⟩) =
      (types.map (⟨·, loc⟩ : Ty → Frame)).map (Frame.relocate f) := by
    simp [Frame.relocate]
  simp only [push, hframes, relocate, TypeStack.pushAll_relocate]

theorem intrinsic_relocate (i : Intrinsic) :
    (st.relocate f).intrinsic (sym.relocate f) i (f loc) =
      relocateBy f (relocate f) (st.intrinsic sym i loc) := by
  unfold intrinsic
  simp only [pop_relocate]
  refine relocateBy_bind (fun popped => ?_) _
  obtain ⟨inputs, st⟩ := popped
  have hzip : i.signature.ins.zip (inputs.map (Frame.relocate f)) =
      (i.signature.ins.zip inputs).map (Prod.map id (Frame.relocate f)) := by
    rw [List.zip_map_right]
  have hoperands := Symbols.checkOperands_relocate f sym loc s!"`{i.name}`" none
    (i.signature.ins.zip inputs)
  rw [← hzip] at hoperands
  simp only [Prod.map]
  rw [show (none : Option Frame) = none.map (Frame.relocate f) from rfl, hoperands]
  refine relocateBy_bind (fun shared => ?_) _
  have hresults : i.signature.outs.filterMap
      (·.frame? (inputs.map (Frame.relocate f)) (shared.map (Frame.relocate f)) (f loc)) =
      (i.signature.outs.filterMap (·.frame? inputs shared loc)).map (Frame.relocate f) := by
    simp only [Outcome.frame?_relocate, List.map_filterMap]
  rw [hresults, show (st.relocate f).stack = st.stack.relocate f from rfl,
    TypeStack.pushAll_relocate]
  rfl

theorem cast_relocate (ty : Ty) :
    (st.relocate f).cast (sym.relocate f) ty (f loc) =
      relocateBy f (relocate f) (st.cast sym ty loc) := by
  unfold cast
  simp only [popOne_relocate, Symbols.typeName_relocate]
  refine relocateBy_bind (fun popped => ?_) _
  simp only [Prod.map, push_relocate]
  rfl

theorem call_relocate (id : Nat) :
    (st.relocate f).call (sym.relocate f) id (f loc) =
      relocateBy f (relocate f) (st.call sym id loc) := by
  unfold call
  simp only [Symbols.procAt_relocate]
  refine relocateBy_bind (fun p => ?_) _
  simp only [Procedure.ins_relocate, Procedure.name_relocate, Procedure.outs_relocate,
    Procedure.loc_relocate]
  have hframes : (st.relocate f).stack.frames = st.stack.frames.map (Frame.relocate f) := rfl
  simp only [hframes, List.length_map]
  by_cases hfew : st.stack.frames.length < p.ins.length
  · simp [hfew]
  · simp only [hfew, if_false, Symbols.checkArguments_relocate]
    refine relocateBy_bind (fun _ => ?_) _
    simp only [pop_relocate]
    refine relocateBy_bind (fun popped => ?_) _
    simp only [Prod.map, push_relocate]
    rfl

theorem pushBinding_relocate (depth : Nat) :
    (st.relocate f).pushBinding depth (f loc) =
      relocateBy f (relocate f) (st.pushBinding depth loc) := by
  unfold pushBinding
  rw [show (st.relocate f).bindings[depth]? = (st.bindings[depth]?).map (Frame.relocate f) from
    List.getElem?_map]
  cases st.bindings[depth]? with
  | none => rfl
  | some v => simp [push_relocate]

theorem storeVar_relocate (ref : Ref) (ty : Ty) :
    (st.relocate f).storeVar (sym.relocate f) ref ty (f loc) =
      relocateBy f (relocate f) (st.storeVar sym ref ty loc) := by
  unfold storeVar
  rw [Symbols.var?_relocate]
  cases sym.var? ref with
  | none => rfl
  | some v =>
    simp only [Option.map_some, Scalar.name_relocate, popOne_relocate]
    refine relocateBy_bind (fun popped => ?_) _
    simp only [Prod.map, Symbols.expectType_relocate]
    refine relocateBy_bind (fun _ => ?_) _
    rfl

theorem member_relocate (access : MemberAccess) (name : String) :
    (st.relocate f).member (sym.relocate f) access name (f loc) =
      relocateBy f (Prod.map id (relocate f)) (st.member sym access name loc) := by
  unfold member
  simp only [popOne_relocate]
  refine relocateBy_bind (fun popped => ?_) _
  obtain ⟨⟨ty, pushed⟩, below⟩ := popped
  simp only [Prod.map, Frame.relocate]
  cases ty with
  | struct id =>
    simp only [Symbols.getElem?_structs_relocate]
    cases sym.structs[id]? with
    | none => rfl
    | some d =>
      have hmember : (d.relocate f).member? name = d.member? name := rfl
      simp only [Option.map_some, hmember, push_relocate]
      cases d.member? name <;> simp
  | int | bool | ptr | any => simp

theorem openIf_relocate (index : Nat) :
    (st.relocate f).openIf (sym.relocate f) index (f loc) =
      relocateBy f (relocate f) (st.openIf sym index loc) := by
  unfold openIf
  simp only [popOne_relocate]
  refine relocateBy_bind (fun popped => ?_) _
  simp only [Prod.map, Symbols.expectType_relocate]
  refine relocateBy_bind (fun _ => ?_) _
  rfl

theorem enterElse_relocate (opener : Nat) :
    (st.relocate f).enterElse opener (f loc) =
      relocateBy f (relocate f) (st.enterElse opener loc) := by
  unfold enterElse
  cases hbranches : st.branches with
  | nil => simp [relocate, hbranches]
  | cons b branches =>
    have hopener : (b.relocate f).opener = b.opener := rfl
    have hthen : (b.relocate f).thenEnd.isSome = b.thenEnd.isSome := Option.isSome_map
    simp only [relocate, hbranches, List.map_cons, hopener, hthen]
    split
    · simp [Branch.relocate]
    · simp [relocate, Branch.relocate, BranchEnd.relocate, TypeStack.resetCounters_relocate]

theorem popBranch_relocate (opener : Nat) :
    (st.relocate f).popBranch opener (f loc) =
      relocateBy f (Prod.map (Branch.relocate f) (relocate f)) (st.popBranch opener loc) := by
  unfold popBranch
  cases hbranches : st.branches with
  | nil => simp [relocate, hbranches]
  | cons b branches =>
    by_cases hopener : b.opener = opener
    · simp [relocate, hbranches, Branch.relocate, hopener]
    · simp [relocate, hbranches, Branch.relocate, hopener]

theorem closeIf_relocate (opener : Nat) :
    (st.relocate f).closeIf (sym.relocate f) opener (f loc) =
      relocateBy f (relocate f) (st.closeIf sym opener loc) := by
  unfold closeIf
  rw [popBranch_relocate]
  refine relocateBy_bind (fun popped => ?_) _
  obtain ⟨b, st⟩ := popped
  have hthen : (b.relocate f).thenEnd.isSome = b.thenEnd.isSome := Option.isSome_map
  have hentry : (b.relocate f).entry.types = b.entry.types := b.entry.types_relocate f
  have hexit : (st.relocate f).stack.types = st.stack.types := st.stack.types_relocate f
  simp only [Prod.map, hthen, hentry, hexit, Symbols.shape_relocate]
  split
  · simp [Branch.relocate]
  · split
    · rfl
    · simp [Branch.relocate]

theorem closeElse_relocate (opener : Nat) :
    (st.relocate f).closeElse (sym.relocate f) opener (f loc) =
      relocateBy f (relocate f) (st.closeElse sym opener loc) := by
  unfold closeElse
  rw [popBranch_relocate]
  refine relocateBy_bind (fun popped => ?_) _
  obtain ⟨b, st⟩ := popped
  have hexit : (st.relocate f).stack.types = st.stack.types := st.stack.types_relocate f
  have hthen : (b.relocate f).thenEnd = b.thenEnd.map (BranchEnd.relocate f) := rfl
  simp only [Prod.map, hthen, hexit, Symbols.shape_relocate]
  cases b.thenEnd with
  | none => simp [Branch.relocate]
  | some thenEnd =>
    have htypes : (thenEnd.relocate f).types = thenEnd.types := rfl
    simp only [Option.map_some, htypes]
    split
    · rfl
    · simp [Branch.relocate, BranchEnd.relocate]

theorem bind_relocate (count : Nat) :
    (st.relocate f).bind count (f loc) = relocateBy f (relocate f) (st.bind count loc) := by
  unfold bind
  rw [pop_relocate]
  refine relocateBy_bind (fun popped => ?_) _
  simp [relocate, pure_eq_ok]

theorem unbind_relocate (count : Nat) :
    (st.relocate f).unbind count (f loc) = relocateBy f (relocate f) (st.unbind count loc) := by
  unfold unbind
  simp only [relocate, List.length_map]
  split
  · rfl
  · simp [relocate, List.map_drop]

theorem beginProc_relocate (index id : Nat) :
    (st.relocate f).beginProc (sym.relocate f) index id (f loc) =
      relocateBy f (relocate f) (st.beginProc sym index id loc) := by
  unfold beginProc
  rw [Symbols.procAt_relocate]
  refine relocateBy_bind (fun p => ?_) _
  have hcurrent : (st.relocate f).current = st.current := rfl
  rw [hcurrent]
  cases st.current with
  | some outer =>
    simp only [Symbols.procAt_relocate]
    refine relocateBy_bind (fun outer => ?_) _
    simp
  | none => simp [relocate, TypeStack.seed_relocate]

theorem endProc_relocate (id : Nat) :
    (st.relocate f).endProc (sym.relocate f) id (f loc) =
      relocateBy f (relocate f) (st.endProc sym id loc) := by
  unfold endProc
  rw [Symbols.procAt_relocate]
  refine relocateBy_bind (fun p => ?_) _
  cases hbranches : st.branches with
  | nil =>
    simp only [relocate, hbranches, List.map_nil, TypeStack.types_relocate,
      Procedure.outs_relocate]
    split
    · rfl
    · simp
  | cons b branches => simp [relocate, hbranches, Branch.relocate]

/-! ## Runs -/

theorem effect_relocate (index : Nat) (kind : OpKind) :
    (st.relocate f).effect (sym.relocate f) index kind (f loc) =
      relocateBy f (relocate f) (st.effect sym index kind loc) := by
  cases kind with
  | pushInt | pushBool | pushPtr | pushMem | pushStr | loadVar | varAddr =>
    exact congrArg Except.ok (push_relocate f st loc _)
  | intrinsic i => exact intrinsic_relocate f sym st loc i
  | cast ty => exact cast_relocate f sym st loc ty
  | call id => exact call_relocate f sym st loc id
  | pushBinding depth => exact pushBinding_relocate f st loc depth
  | storeVar ref ty => exact storeVar_relocate f sym st loc ref ty
  | member access name offset =>
    simp only [effect, member_relocate]
    cases st.member sym access name loc <;> rfl
  | ifBegin => exact openIf_relocate f sym st loc index
  | ifElse opener => exact enterElse_relocate f st loc opener
  | ifEnd opener => exact closeIf_relocate f sym st loc opener
  | elseEnd opener => exact closeElse_relocate f sym st loc opener
  | bind count => exact bind_relocate f st loc count
  | unbind count => exact unbind_relocate f st loc count
  | procBegin id => exact beginProc_relocate f sym st loc index id
  | procEnd id frame => exact endProc_relocate f sym st loc id

theorem step_relocate (index : Nat) (op : Op) :
    (st.relocate f).step (sym.relocate f) index (op.relocate f) =
      relocateBy f (relocate f) (st.step sym index op) := by
  have hcurrent : (st.relocate f).current = st.current := rfl
  have hkind : (op.relocate f).kind = op.kind := rfl
  have hloc : (op.relocate f).loc = f op.loc := rfl
  simp only [step_eq, hcurrent, hkind, hloc, effect_relocate]
  split <;> rfl

theorem annotate_relocate (op : Op) :
    (st.relocate f).annotate (sym.relocate f) (op.relocate f) =
      (st.annotate sym op).relocate f := by
  obtain ⟨kind, loc⟩ := op
  cases kind with
  | member access name offset =>
    have hpeek : (st.relocate f).stack.peek? 0 = (st.stack.peek? 0).map (Frame.relocate f) :=
      List.getElem?_map
    simp only [annotate, Op.relocate, hpeek]
    cases st.stack.peek? 0 <;> simp
  | _ => rfl

theorem run_relocate (index : Nat) (ops : List Op) :
    run (sym.relocate f) (st.relocate f) index (ops.map (Op.relocate f)) =
      Prod.map (List.map (Op.relocate f)) (relocateBy f (relocate f)) (run sym st index ops) := by
  induction ops generalizing st index with
  | nil => rfl
  | cons op ops ih =>
    have hmoved := step_relocate f sym st index op
    cases hstep : st.step sym index op with
    | error e =>
      rw [hstep] at hmoved
      rw [List.map_cons, run_cons_error hstep, run_cons_error hmoved]
      rfl
    | ok next =>
      rw [hstep] at hmoved
      rw [List.map_cons, run_cons_ok hstep, run_cons_ok hmoved, annotate_relocate, ih]
      rfl

theorem finish_relocate :
    (st.relocate f).finish (sym.relocate f) = relocateBy f id (st.finish sym) := by
  unfold finish
  have hcurrent : (st.relocate f).current = st.current := rfl
  rw [hcurrent]
  cases st.current with
  | none => rfl
  | some id =>
    simp only [Option.bind_some, Symbols.getElem?_procs_relocate]
    cases sym.procs[id]? <;> rfl

end CheckState

/-- A program at other places is checked to the same contracts and offsets. -/
theorem Checked.ofProgram_relocate (f : Location → Location) (p : Program) :
    ofProgram (p.relocate f) = relocateBy f (Checked.relocate f) (ofProgram p) := by
  have hrun := CheckState.run_relocate f p.symbols {} 0 p.ops
  rw [show ({} : CheckState).relocate f = {} from rfl] at hrun
  unfold ofProgram checkOps
  rw [show (p.relocate f).symbols = p.symbols.relocate f from rfl,
    show (p.relocate f).ops = p.ops.map (Op.relocate f) from rfl, hrun]
  simp only [Prod.map]
  cases (CheckState.run p.symbols {} 0 p.ops).2 with
  | error e => rfl
  | ok last =>
    simp only [relocateBy_ok, Except.bind, CheckState.finish_relocate]
    exact relocateBy_map (by simp [Checked.relocate, Program.relocate]) _

end StackEffect
