import StackEffect.Proofs.Faults
import StackEffect.Proofs.Pass

/-! # Where the checker fails

A check fails at the operation it comes to. Its fault quotes names from the tables, the names of
members that operations ask for, and spellings of types and operations.
-/

namespace StackEffect

def OpKind.memberName? : OpKind → Option String
  | member _ name _ => some name
  | _ => none

attribute [local simp] Cause.texts Remark.texts

variable {P : Location → Prop} {Q : String → Prop} {sym : Symbols} {st : CheckState}
  {loc : Location} {what : String}

theorem Symbols.procAt_faults (id : Nat) (hloc : P loc) :
    Faults (Fault.Within P Q) (sym.procAt id loc) := by
  unfold procAt
  split
  · exact .ok _
  · exact .error (by simp [hloc])

namespace CheckState

theorem pop_faults (count : Nat) (hwhat : Q what) (hloc : P loc) :
    Faults (Fault.Within P Q) (st.pop count what loc) := by
  unfold pop
  split
  · exact .ok _
  · exact .error (by simp [hwhat, hloc])

theorem popOne_faults (hwhat : Q what) (hloc : P loc) :
    Faults (Fault.Within P Q) (st.popOne what loc) := by
  unfold popOne
  split
  · exact .ok _
  · exact .error (by simp [hwhat, hloc])

theorem popBranch_faults (opener : Nat) (hloc : P loc) :
    Faults (Fault.Within P Q) (st.popBranch opener loc) := by
  unfold popBranch
  split
  · exact .error (by simp [hloc])
  · split
    · exact .ok _
    · exact .error (by simp [hloc])

theorem pushBinding_faults (depth : Nat) (hloc : P loc) :
    Faults (Fault.Within P Q) (st.pushBinding depth loc) := by
  unfold pushBinding
  split
  · exact .ok _
  · exact .error (by simp [hloc])

theorem enterElse_faults (opener : Nat) (hloc : P loc) :
    Faults (Fault.Within P Q) (st.enterElse opener loc) := by
  unfold enterElse
  split
  · exact .error (by simp [hloc])
  · split
    · exact .error (by simp [hloc])
    · exact .ok _

theorem unbind_faults (count : Nat) (hloc : P loc) :
    Faults (Fault.Within P Q) (st.unbind count loc) := by
  unfold unbind
  split
  · exact .error (by simp [hloc])
  · exact .ok _

end CheckState

variable (hQ : Quotable Q) (hsym : sym.AllNames Q)

include hQ hsym

namespace Symbols

theorem expectType_faults (f : Frame) (ty : Ty) (hwhat : Q what) (hloc : P loc) :
    Faults (Fault.Within P Q) (sym.expectType f ty what loc) := by
  unfold expectType
  split
  · exact .ok _
  · exact .error (by simp [hwhat, hQ.typeName hsym.structs, hloc])

theorem checkOperands_faults (hwhat : Q what) (hloc : P loc) (shared : Option Frame)
    (l : List (Operand × Frame)) :
    Faults (Fault.Within P Q) (sym.checkOperands what loc shared l) := by
  fun_induction checkOperands sym what loc shared l with
  | case1 => exact .ok _
  | case2 _ _ _ ih | case4 _ _ ih | case5 _ _ _ _ ih => exact ih
  | case3 _ ty f _ ih => exact (expectType_faults hQ hsym f ty hwhat hloc).bind fun _ _ => ih
  | case6 _ _ _ _ a b =>
    have ha : Q a := hQ.typeName hsym.structs _
    have hb : Q b := hQ.typeName hsym.structs _
    exact .error (by simp [hwhat, ha, hb, hloc])

theorem checkArguments_faults {p : Procedure} (hp : Q p.name) (hloc : P loc) (wanted : List Ty)
    (frames : List Frame) : Faults (Fault.Within P Q) (sym.checkArguments p loc wanted frames) := by
  induction wanted generalizing frames with
  | nil => exact .ok _
  | cons want wanted ih =>
    cases frames with
    | nil => exact .ok _
    | cons f frames =>
      unfold checkArguments
      split
      · exact ih frames
      · exact .error (by simp [hp, hQ.typeName hsym.structs, hloc])

omit hQ

theorem name_of_var? {ref : Ref} {v : Scalar} (hv : sym.var? ref = some v) : Q v.name := by
  unfold var? at hv
  split at hv
  · exact hsym.globals v (List.mem_of_getElem? hv)
  · obtain ⟨p, hp, hv⟩ := Option.bind_eq_some_iff.mp hv
    exact hsym.locals p (List.mem_of_getElem? hp) v (List.mem_of_getElem? hv)

theorem name_of_procAt {id : Nat} {p : Procedure} (hp : sym.procAt id loc = .ok p) : Q p.name := by
  unfold procAt at hp
  split at hp
  · rename_i hget
    cases hp
    exact hsym.procs p (List.mem_of_getElem? hget)
  · cases hp

end Symbols

namespace CheckState

theorem intrinsic_faults (i : Intrinsic) (hloc : P loc) :
    Faults (Fault.Within P Q) (st.intrinsic sym i loc) := by
  have hwhat : Q s!"`{i.name}`" := hQ.between (hQ.line i.oneLine_name) (by decide) (by decide)
  exact (pop_faults _ hwhat hloc).bind fun popped _ =>
    (Symbols.checkOperands_faults hQ hsym hwhat hloc _ _).bind fun _ _ => .ok _

theorem cast_faults (ty : Ty) (hloc : P loc) :
    Faults (Fault.Within P Q) (st.cast sym ty loc) := by
  have hwhat : Q s!"cast to {sym.typeName ty}" :=
    hQ.append (hQ.line (by decide)) (hQ.typeName hsym.structs ty)
  exact (popOne_faults hwhat hloc).bind fun _ _ => .ok _

theorem call_faults (id : Nat) (hloc : P loc) :
    Faults (Fault.Within P Q) (st.call sym id loc) := by
  refine (sym.procAt_faults id hloc).bind fun p hp => ?_
  have hname := Symbols.name_of_procAt hsym hp
  have hwhat : Q s!"call to `{p.name}`" := hQ.between hname (by decide) (by decide)
  simp only
  split
  · exact .error (by simp [hname, hloc])
  · exact (Symbols.checkArguments_faults hQ hsym hname hloc _ _).bind fun _ _ =>
      (pop_faults _ hwhat hloc).bind fun _ _ => .ok _

theorem storeVar_faults (ref : Ref) (ty : Ty) (hloc : P loc) :
    Faults (Fault.Within P Q) (st.storeVar sym ref ty loc) := by
  unfold storeVar
  split
  · exact .error (by simp [hQ.line ref.oneLine_text, hloc])
  · rename_i v hv
    have hwhat : Q s!"store to `{v.name}`" :=
      hQ.between (Symbols.name_of_var? hsym hv) (by decide) (by decide)
    exact (popOne_faults hwhat hloc).bind fun popped _ =>
      (Symbols.expectType_faults hQ hsym _ _ hwhat hloc).bind fun _ _ => .ok _

theorem member_faults (access : MemberAccess) {name : String} (hname : Q name) (hloc : P loc) :
    Faults (Fault.Within P Q) (st.member sym access name loc) := by
  have hwhat := hQ.accessWord access hname
  refine (popOne_faults hwhat hloc).bind fun popped _ => ?_
  simp only
  split
  · split
    · exact .error (by simp [hloc])
    · rename_i d hd
      have hstruct := hsym.structs d (List.mem_of_getElem? hd)
      split
      · exact .error (by simp [hname, hstruct, hloc])
      · exact .ok _
  · exact .error (by simp [hwhat, hQ.typeName hsym.structs, hloc])

theorem openIf_faults (index : Nat) (hloc : P loc) :
    Faults (Fault.Within P Q) (st.openIf sym index loc) :=
  (popOne_faults (hQ.line (by decide)) hloc).bind fun popped _ =>
    (Symbols.expectType_faults hQ hsym _ _ (hQ.line (by decide)) hloc).bind fun _ _ => .ok _

theorem closeIf_faults (opener : Nat) (hloc : P loc) :
    Faults (Fault.Within P Q) (st.closeIf sym opener loc) := by
  have hif : Q "`if`" := hQ.line (by decide)
  refine (popBranch_faults opener hloc).bind fun popped _ => ?_
  simp only
  split
  · exact .error (by simp [hif, hloc])
  · split
    · exact .ok _
    · exact .error (by simp [hif, hQ.shape hsym.structs, hloc])

theorem closeElse_faults (opener : Nat) (hloc : P loc) :
    Faults (Fault.Within P Q) (st.closeElse sym opener loc) := by
  have hif : Q "`if`" := hQ.line (by decide)
  refine (popBranch_faults opener hloc).bind fun popped _ => ?_
  simp only
  split
  · exact .error (by simp [hif, hloc])
  · split
    · exact .ok _
    · exact .error (by simp [hif, hQ.shape hsym.structs, hloc])

omit hQ in
theorem beginProc_faults (index id : Nat) (hloc : P loc) :
    Faults (Fault.Within P Q) (st.beginProc sym index id loc) := by
  refine (sym.procAt_faults id hloc).bind fun p hp => ?_
  have hname := Symbols.name_of_procAt hsym hp
  split
  · refine (sym.procAt_faults _ hloc).bind fun outer houter => ?_
    exact .error (by simp [hname, Symbols.name_of_procAt hsym houter, hloc])
  · exact .ok _

theorem endProc_faults (id : Nat) (hloc : P loc) :
    Faults (Fault.Within P Q) (st.endProc sym id loc) := by
  have hif : Q "`if`" := hQ.line (by decide)
  refine (sym.procAt_faults id hloc).bind fun p hp => ?_
  have hname := Symbols.name_of_procAt hsym hp
  simp only
  split
  · exact .error (by simp [hname, hif, hloc])
  · split
    · exact .ok _
    · exact .error (by simp [hname, hQ.shape hsym.structs, hloc])

/-- What an operation does can fail at its place only. -/
theorem effect_faults (index : Nat) {kind : OpKind} (hkind : ∀ name ∈ kind.memberName?, Q name)
    (hloc : P loc) : Faults (Fault.Within P Q) (st.effect sym index kind loc) := by
  cases kind with
  | pushInt | pushBool | pushPtr | pushMem | pushStr | loadVar | varAddr => exact .ok _
  | intrinsic i => exact intrinsic_faults hQ hsym i hloc
  | cast ty => exact cast_faults hQ hsym ty hloc
  | call id => exact call_faults hQ hsym id hloc
  | pushBinding depth => exact pushBinding_faults depth hloc
  | storeVar ref ty => exact storeVar_faults hQ hsym ref ty hloc
  | member access name offset => exact (member_faults hQ hsym access (hkind name rfl) hloc).map _
  | ifBegin => exact openIf_faults hQ hsym index hloc
  | ifElse opener => exact enterElse_faults opener hloc
  | ifEnd opener => exact closeIf_faults hQ hsym opener hloc
  | elseEnd opener => exact closeElse_faults hQ hsym opener hloc
  | bind count => exact (pop_faults _ (hQ.line (by decide)) hloc).bind fun _ _ => .ok _
  | unbind count => exact unbind_faults count hloc
  | procBegin id => exact beginProc_faults hsym index id hloc
  | procEnd id frame => exact endProc_faults hQ hsym id hloc

/-- A check fails at one of its operations. -/
theorem run_within {ops : List Op} (hops : ∀ op ∈ ops, P op.loc)
    (hnames : ∀ op ∈ ops, ∀ name ∈ op.kind.memberName?, Q name) (index : Nat) :
    Faults (Fault.Within P Q) (run sym st index ops).2 := by
  induction ops generalizing st index with
  | nil => exact .ok st
  | cons op ops ih =>
    obtain ⟨hop, hops⟩ := List.forall_mem_cons.mp hops
    obtain ⟨hname, hnames⟩ := List.forall_mem_cons.mp hnames
    have hstep : Faults (Fault.Within P Q) (st.step sym index op) := by
      rw [step_eq]
      split
      · exact .error (by simp [hQ.line op.kind.oneLine_text, hop])
      · exact effect_faults hQ hsym index hname hop
    cases hnext : st.step sym index op with
    | error f =>
      rw [run_cons_error hnext]
      exact .error (hstep f hnext)
    | ok next =>
      rw [run_cons_ok hnext]
      exact ih hops hnames (index + 1)

omit hQ in
/-- At the end of a check, what can be wrong is that a procedure is open. -/
theorem finish_within (hprocs : ∀ p ∈ sym.procs, P p.loc) (st : CheckState) :
    Faults (Fault.Within P Q) (st.finish sym) := by
  unfold finish
  split
  · rename_i p hp
    obtain ⟨id, _, hget⟩ := Option.bind_eq_some_iff.mp hp
    have hmem := List.mem_of_getElem? hget
    exact .error (by simp [hprocs p hmem, hsym.procs p hmem])
  · exact .ok _

end CheckState

end StackEffect
