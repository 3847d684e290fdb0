import StackEffect.Proofs.Growth
import StackEffect.Proofs.Pass

/-! # Checking against larger tables

The checker looks up procedures, variables and structs by their numbers, and otherwise needs the
tables only for the texts of its complaints. So operations that it accepts are accepted in the same
way when more is declared behind what they refer to.
-/

namespace StackEffect

namespace Symbols.IsPrefix

variable {s t : Symbols}

/-- What is listed in a table keeps its number. -/
theorem entry_stays {α : Type} {table longer : List α} (h : table <+: longer) {i : Nat} {a : α}
    (ha : table[i]? = some a) : longer[i]? = some a := by
  obtain ⟨hlt, rfl⟩ := List.getElem?_eq_some_iff.mp ha
  exact List.prefix_iff_getElem?.mp h i hlt

theorem var? (h : s.IsPrefix t) {ref : Ref} {v : Scalar} (hv : s.var? ref = some v) :
    t.var? ref = some v := by
  obtain ⟨scope, i⟩ := ref
  cases scope with
  | global => exact entry_stays h.globals hv
  | frame id =>
    obtain ⟨p, hp, hv⟩ := Option.bind_eq_some_iff.mp hv
    exact Option.bind_eq_some_iff.mpr ⟨p, entry_stays h.procs hp, hv⟩

theorem procAt_keeps (h : s.IsPrefix t) (id : Nat) (loc : Location) :
    Keeps (s.procAt id loc) (t.procAt id loc) := by
  intro p hp
  simp [procAt, entry_stays h.procs (CheckState.procAt_eq_ok hp)]

end Symbols.IsPrefix

namespace Symbols

theorem expectType_keeps (s t : Symbols) (f : Frame) (ty : Ty) (what : String) (loc : Location) :
    Keeps (s.expectType f ty what loc) (t.expectType f ty what loc) := by
  unfold expectType
  split
  · exact .refl _
  · exact .error _ _

theorem checkOperands_keeps (s t : Symbols) (what : String) (loc : Location)
    (shared : Option Frame) (l : List (Operand × Frame)) :
    Keeps (s.checkOperands what loc shared l) (t.checkOperands what loc shared l) := by
  fun_induction checkOperands s what loc shared l with
  | case1 => exact .refl _
  | case2 _ _ _ ih => exact ih
  | case3 _ _ _ _ ih => exact (expectType_keeps s t _ _ what loc).bind fun _ _ => ih
  | case4 _ _ ih => exact ih
  | case5 _ _ _ hty ih => simpa [checkOperands, hty] using ih
  | case6 => exact .error _ _

theorem checkArguments_keeps (s t : Symbols) (p : Procedure) (loc : Location) (wanted : List Ty)
    (frames : List Frame) :
    Keeps (s.checkArguments p loc wanted frames) (t.checkArguments p loc wanted frames) := by
  induction wanted generalizing frames with
  | nil => exact .refl _
  | cons want wanted ih =>
    cases frames with
    | nil => exact .refl _
    | cons f frames =>
      simp only [checkArguments]
      split
      · exact ih frames
      · exact .error _ _

end Symbols

namespace CheckState

variable {s t : Symbols}

theorem member_keeps (h : s.IsPrefix t) (st : CheckState) (access : MemberAccess) (name : String)
    (loc : Location) : Keeps (st.member s access name loc) (st.member t access name loc) := by
  refine (Keeps.refl _).bind fun popped _ => ?_
  obtain ⟨⟨ty, pushed⟩, below⟩ := popped
  cases ty with
  | struct id =>
    simp only
    cases hd : s.structs[id]? with
    | none => exact .error _ _
    | some d =>
      rw [Symbols.IsPrefix.entry_stays h.structs hd]
      exact .refl _
  | int | bool | ptr | any => exact .error _ _

/-- Larger tables accept what smaller ones do, with the same effect. -/
theorem effect_keeps (h : s.IsPrefix t) (st : CheckState) (index : Nat) (kind : OpKind)
    (loc : Location) : Keeps (st.effect s index kind loc) (st.effect t index kind loc) := by
  cases kind with
  | pushInt | pushBool | pushPtr | pushMem | pushStr | pushBinding | loadVar | varAddr | ifElse | bind
  | unbind => exact .refl _
  | intrinsic i =>
    exact (Keeps.refl _).bind fun popped _ =>
      (Symbols.checkOperands_keeps s t _ loc none _).bind fun _ _ => .refl _
  | cast ty =>
    simp only [effect, CheckState.cast, popOne]
    cases st.stack.pop? with
    | none => exact .error _ _
    | some popped => exact .refl _
  | call id =>
    refine (h.procAt_keeps id loc).bind fun p _ => ?_
    simp only
    split
    · exact .error _ _
    · exact (Symbols.checkArguments_keeps s t p loc _ _).bind fun _ _ => .refl _
  | storeVar ref ty =>
    simp only [effect, CheckState.storeVar]
    cases hv : s.var? ref with
    | none => exact .error _ _
    | some v =>
      rw [h.var? hv]
      exact (Keeps.refl _).bind fun popped _ =>
        (Symbols.expectType_keeps s t _ ty _ loc).bind fun _ _ => .refl _
  | member access name offset =>
    intro next hnext
    obtain ⟨found, hfound, rfl⟩ := map_eq_ok hnext
    rw [effect, member_keeps h st access name loc found hfound]
    rfl
  | ifBegin =>
    exact (Keeps.refl _).bind fun popped _ =>
      (Symbols.expectType_keeps s t _ .bool _ loc).bind fun _ _ => .refl _
  | ifEnd opener | elseEnd opener =>
    refine (Keeps.refl _).bind fun popped _ => ?_
    simp only
    split
    · exact .refl _
    · split
      · exact .refl _
      · exact .error _ _
  | procBegin id =>
    refine (h.procAt_keeps id loc).bind fun p _ => ?_
    cases st.current with
    | none => exact .refl _
    | some outer => exact (h.procAt_keeps outer loc).bind fun _ _ => .error _ _
  | procEnd id frame =>
    refine (h.procAt_keeps id loc).bind fun p _ => ?_
    simp only
    split
    · exact .refl _
    · split
      · exact .refl _
      · exact .error _ _

theorem step_keeps (h : s.IsPrefix t) (st : CheckState) (index : Nat) (op : Op) :
    Keeps (st.step s index op) (st.step t index op) := by
  rw [step_eq, step_eq]
  split
  · exact .error _ _
  · exact effect_keeps h st index op.kind op.loc

/-- The offset of a member is the same in larger tables. -/
theorem annotate_eq_of_isPrefix (h : s.IsPrefix t) {st next : CheckState} {index : Nat} {op : Op}
    (hstep : st.step s index op = .ok next) : st.annotate t op = st.annotate s op := by
  obtain ⟨kind, loc⟩ := op
  cases kind with
  | member access name offset =>
    rw [step_eq] at hstep
    split at hstep
    · cases hstep
    obtain ⟨found, hmember, _⟩ := map_eq_ok hstep
    have hkept := member_keeps h st access name loc found hmember
    simp only [annotate, member_offset hmember, member_offset hkept]
  | _ => rfl

/-- Checking what smaller tables accept gives the same with larger ones. -/
theorem run_eq_of_isPrefix (h : s.IsPrefix t) {st last : CheckState} {index : Nat} {ops : List Op}
    (hrun : (run s st index ops).2 = .ok last) : run t st index ops = run s st index ops := by
  induction ops generalizing st index with
  | nil => rfl
  | cons op ops ih =>
    cases hstep : st.step s index op with
    | error f => simp [run_cons_error hstep] at hrun
    | ok next =>
      rw [run_cons_ok hstep] at hrun ⊢
      rw [run_cons_ok (step_keeps h st index op next hstep), ih hrun, annotate_eq_of_isPrefix h hstep]

end CheckState

end StackEffect
