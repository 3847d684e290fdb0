import StackEffect.Proofs.Framing
import StackEffect.Proofs.VariableWords

/-! # What the check writes

The check gives its operations back with the offsets of members filled in. It changes nothing else,
fills in nothing from the operation it rejects on, and never reads an offset: lists that agree but
for offsets are checked alike, and so a checked list can be checked again.
-/

namespace StackEffect

def OpKind.withoutOffset : OpKind → OpKind
  | member access name _ => member access name none
  | kind => kind

def Op.withoutOffset (op : Op) : Op :=
  { op with kind := op.kind.withoutOffset }

namespace CheckState

variable {sym : Symbols} {st next : CheckState} {index k : Nat} {op op' : Op}
  {ops ops' : List Op} {f : Fault}

/-! ## One operation -/

theorem effect_withoutOffset (sym : Symbols) (st : CheckState) (index : Nat) (kind : OpKind)
    (loc : Location) :
    st.effect sym index kind.withoutOffset loc = st.effect sym index kind loc := by
  cases kind <;> rfl

theorem standsOutside_withoutOffset (kind : OpKind) :
    standsOutside kind.withoutOffset = standsOutside kind := by
  cases kind <;> rfl

theorem annotate_withoutOffset (sym : Symbols) (st : CheckState) (op : Op) :
    st.annotate sym op.withoutOffset = st.annotate sym op := by
  obtain ⟨kind, loc⟩ := op
  cases kind <;> rfl

theorem withoutOffset_annotate (sym : Symbols) (st : CheckState) (op : Op) :
    (st.annotate sym op).withoutOffset = op.withoutOffset := by
  obtain ⟨kind, loc⟩ := op
  cases kind <;> rfl

theorem annotate_congr (sym : Symbols) (st : CheckState)
    (h : op'.withoutOffset = op.withoutOffset) : st.annotate sym op' = st.annotate sym op := by
  rw [← annotate_withoutOffset, h, annotate_withoutOffset]

/-- An operation is accepted with any offset, and to the same effect. -/
theorem step_congr (h : op'.withoutOffset = op.withoutOffset)
    (hstep : st.step sym index op = .ok next) : st.step sym index op' = .ok next := by
  obtain ⟨hkind, hloc⟩ := Op.mk.inj h
  rw [step_eq] at hstep ⊢
  rw [← standsOutside_withoutOffset, hkind, standsOutside_withoutOffset]
  split at hstep
  · cases hstep
  · rename_i hinside
    rw [if_neg hinside, ← effect_withoutOffset, hkind, hloc, effect_withoutOffset]
    exact hstep

/-- An operation is rejected with any offset, in the same place and for a cause of the same kind.
The message may name the offset. -/
theorem step_congr_error (h : op'.withoutOffset = op.withoutOffset)
    (hstep : st.step sym index op = .error f) :
    ∃ f', st.step sym index op' = .error f' ∧ f'.cause.kind = f.cause.kind ∧ f'.loc = f.loc := by
  obtain ⟨hkind, hloc⟩ := Op.mk.inj h
  rw [step_eq] at hstep ⊢
  rw [← standsOutside_withoutOffset op'.kind, hkind, standsOutside_withoutOffset]
  split at hstep
  · rename_i hstray
    cases hstep
    exact ⟨_, if_pos hstray, rfl, hloc⟩
  · rename_i hinside
    rw [if_neg hinside, ← effect_withoutOffset, hkind, hloc, effect_withoutOffset]
    exact ⟨f, hstep, rfl, rfl⟩

/-! ## The whole pass -/

/-- The pass changes nothing but offsets. -/
theorem withoutOffset_run (sym : Symbols) (st : CheckState) (index : Nat) (ops : List Op) :
    (run sym st index ops).1.map Op.withoutOffset = ops.map Op.withoutOffset := by
  induction ops generalizing st index with
  | nil => rfl
  | cons op ops ih =>
    cases hstep : st.step sym index op with
    | error f => simp [run_cons_error hstep]
    | ok next =>
      rw [run_cons_ok hstep, List.map_cons, List.map_cons, withoutOffset_annotate, ih]

/-- A pass that accepts its operations gives the same for all lists that agree but for offsets. -/
theorem run_congr (h : ops'.map Op.withoutOffset = ops.map Op.withoutOffset)
    (hrun : (run sym st index ops).2 = .ok next) :
    run sym st index ops' = run sym st index ops := by
  induction ops generalizing st index ops' with
  | nil =>
    obtain rfl := List.map_eq_nil_iff.mp h
    rfl
  | cons op ops ih =>
    obtain ⟨op', ops', rfl, hop, hops⟩ := List.map_eq_cons_iff.mp h
    cases hstep : st.step sym index op with
    | error f => simp [run_cons_error hstep] at hrun
    | ok mid =>
      rw [run_cons_ok hstep] at hrun ⊢
      rw [run_cons_ok (step_congr hop hstep), ih hops hrun, annotate_congr sym st hop]

/-- A pass over its own output gives the same again. -/
theorem run_run (sym : Symbols) (st : CheckState) (index : Nat) (ops : List Op) :
    run sym st index (run sym st index ops).1 = run sym st index ops := by
  induction ops generalizing st index with
  | nil => rfl
  | cons op ops ih =>
    cases hstep : st.step sym index op with
    | error f => simp [run_cons_error hstep]
    | ok next =>
      have hsame := withoutOffset_annotate sym st op
      rw [run_cons_ok hstep, run_cons_ok (step_congr hsame hstep), ih, annotate_congr sym st hsame]

theorem checkOps_checkOps (sym : Symbols) (ops : List Op) :
    checkOps sym (checkOps sym ops).1 = checkOps sym ops := by
  unfold checkOps
  simp only [run_run]

/-! ## The operation that is rejected -/

/-- A pass accepts the operations before `k` and rejects the one at `k`. -/
def FailsAt (sym : Symbols) (ops : List Op) (k : Nat) (f : Fault) : Prop :=
  ∃ st op, (run sym {} 0 (ops.take k)).2 = .ok st ∧ ops[k]? = some op ∧
    st.step sym k op = .error f

/-- A pass that fails does so at one of its operations. -/
theorem exists_error_step (h : (run sym st index ops).2 = .error f) :
    ∃ k mid op, (run sym st index (ops.take k)).2 = .ok mid ∧ ops[k]? = some op ∧
      mid.step sym (index + k) op = .error f := by
  induction ops generalizing st index with
  | nil => cases h
  | cons op ops ih =>
    cases hstep : st.step sym index op with
    | error f' =>
      obtain rfl : f' = f := by simpa [run_cons_error hstep] using h
      exact ⟨0, st, op, rfl, rfl, hstep⟩
    | ok next =>
      rw [run_cons_ok hstep] at h
      obtain ⟨k, mid, rejected, hmid, hget, herror⟩ := ih h
      refine ⟨k + 1, mid, rejected, ?_, hget, ?_⟩
      · rw [List.take_succ_cons, run_cons_ok hstep]
        exact hmid
      · rwa [Nat.add_comm k 1, ← Nat.add_assoc]

/-- What the pass gives when it fails: the operations before the one rejected as they are checked by
themselves, and all others as they were. -/
theorem FailsAt.run_eq (h : FailsAt sym ops k f) :
    run sym {} 0 ops = ((run sym {} 0 (ops.take k)).1 ++ ops.drop k, .error f) := by
  obtain ⟨st, op, hst, hop, herror⟩ := h
  obtain ⟨hlt, hget⟩ := List.getElem?_eq_some_iff.mp hop
  have hlen : (ops.take k).length = k := by
    rw [List.length_take, Nat.min_eq_left (Nat.le_of_lt hlt)]
  have hrest : run sym st k (ops.drop k) = (ops.drop k, .error f) := by
    rw [List.drop_eq_getElem_cons hlt, hget]
    simp [run_cons_error herror]
  have happend : run sym {} 0 (ops.take k ++ ops.drop k) = _ := run_append_ok hst
  rwa [List.take_append_drop, hlen, Nat.zero_add, hrest] at happend

theorem FailsAt.length_take (h : FailsAt sym ops k f) :
    (run sym {} 0 (ops.take k)).1.length = k := by
  obtain ⟨_, _, _, hop, _⟩ := h
  rw [run_length, List.length_take,
    Nat.min_eq_left (Nat.le_of_lt (List.getElem?_eq_some_iff.mp hop).1)]

theorem FailsAt.checkOps_error (h : FailsAt sym ops k f) : (checkOps sym ops).2 = .error f := by
  unfold checkOps
  rw [h.run_eq]
  rfl

theorem FailsAt.drop_eq (h : FailsAt sym ops k f) : (checkOps sym ops).1.drop k = ops.drop k := by
  change (run sym {} 0 ops).1.drop k = ops.drop k
  rw [h.run_eq, List.drop_left' h.length_take]

theorem FailsAt.take_eq (h : FailsAt sym ops k f) :
    (checkOps sym ops).1.take k = (run sym {} 0 (ops.take k)).1 := by
  change (run sym {} 0 ops).1.take k = _
  rw [h.run_eq, List.take_left' h.length_take]

/-- Lists that agree but for offsets are rejected at the same operation. -/
theorem FailsAt.congr (h : FailsAt sym ops k f)
    (hops : ops'.map Op.withoutOffset = ops.map Op.withoutOffset) :
    ∃ f', FailsAt sym ops' k f' ∧ f'.cause.kind = f.cause.kind ∧ f'.loc = f.loc ∧
      run sym {} 0 (ops'.take k) = run sym {} 0 (ops.take k) := by
  obtain ⟨st, op, hst, hop, herror⟩ := h
  have hfront : (ops'.take k).map Op.withoutOffset = (ops.take k).map Op.withoutOffset := by
    rw [List.map_take, List.map_take, hops]
  have hsame := run_congr hfront hst
  obtain ⟨op', hop', heq⟩ : ∃ op', ops'[k]? = some op' ∧ op'.withoutOffset = op.withoutOffset := by
    have hget := congrArg (·[k]?) hops
    simpa [hop] using hget
  obtain ⟨f', herror', hkind, hloc⟩ := step_congr_error heq herror
  exact ⟨f', ⟨st, op', by rw [hsame, hst], hop', herror'⟩, hkind, hloc, hsame⟩

/-! ## The offsets -/

/-- The offset of a member that is found under its name. -/
theorem annotate_member {top : Frame} {access : MemberAccess} {name : String} {offset : Option Nat}
    {loc : Location} {id i : Nat} {d : StructDef} {m : Member}
    (htop : st.stack.peek? 0 = some top) (hty : top.ty = .struct id)
    (hd : sym.structs[id]? = some d) (hm : d.member? name = some (i, m)) :
    st.annotate sym ⟨.member access name offset, loc⟩ =
      ⟨.member access name (some (4 * i)), loc⟩ := by
  simp [annotate, htop, hty, Symbols.memberOffset?, hd, hm, StructDef.offset, cellSize,
    Nat.mul_comm]

/-- An accepted access to a member finds a struct on top of the stack that has this member. -/
theorem Move.of_member {access : MemberAccess} {name : String} {offset : Option Nat}
    {loc : Location} (h : Move sym k st ⟨.member access name offset, loc⟩ next) :
    ∃ top id d i m, st.stack.peek? 0 = some top ∧ top.ty = .struct id ∧
      sym.structs[id]? = some d ∧ d.member? name = some (i, m) := by
  cases h with
  | @plain _ _ args rest res hk hc hf hlen hout =>
    obtain ⟨top, rfl⟩ := List.length_eq_one_iff.mp hlen
    have htop : st.stack.peek? 0 = some top := by simp [TypeStack.peek?, hf]
    cases hty : top.ty with
    | struct id =>
      simp only [OpKind.outcome?, List.map_cons, List.map_nil, hty, Option.map_eq_some_iff,
        Option.bind_eq_some_iff] at hout
      obtain ⟨⟨i, m⟩, ⟨d, hd, hm⟩, _⟩ := hout
      exact ⟨top, id, d, i, m, htop, hty, hd, hm⟩
    | int | bool | ptr | any => simp [OpKind.outcome?, hty] at hout

end CheckState

open CheckState in
/-- The check only annotates. It gives its operations back at their places and with nothing changed
but offsets of members. If it succeeds, every member has an offset of four bytes for each member in
front of it in the struct on top of the stack, which fits in 32 bits for up to 2 ^ 30 members. If it
fails at an operation, this one and those behind it are as they were; the only other way to fail is
that the last procedure is not closed. The operations that it gives are checked to the same result.
Lists that agree but for offsets are accepted with the same contracts and offsets, or rejected at
the same operation, in the same place and for a cause of the same kind, with the same offsets in
front of it. -/
theorem checking_only_annotates (sym : Symbols) (ops : List Op) :
    (checkOps sym ops).1.map Op.withoutOffset = ops.map Op.withoutOffset ∧
    (∀ contracts, (checkOps sym ops).2 = .ok contracts → ∀ k access name offset loc,
      ops[k]? = some ⟨.member access name offset, loc⟩ →
      ∃ st top id d i m, (run sym {} 0 (ops.take k)).2 = .ok st ∧ st.stack.peek? 0 = some top ∧
        top.ty = .struct id ∧ sym.structs[id]? = some d ∧ d.members[i]? = some m ∧
        m.name = name ∧ (∀ j other, d.members[j]? = some other → other.name = name → i ≤ j) ∧
        (checkOps sym ops).1[k]? = some ⟨.member access name (some (4 * i)), loc⟩ ∧
        (d.members.length ≤ 1073741824 → 4 * i ≤ byteLimit)) ∧
    (∀ f, (checkOps sym ops).2 = .error f → (∃ k, FailsAt sym ops k f) ∨
      ∃ st, (run sym {} 0 ops).2 = .ok st ∧ st.finish sym = .error f) ∧
    (∀ k f, FailsAt sym ops k f → (checkOps sym ops).2 = .error f ∧
      (checkOps sym ops).1.drop k = ops.drop k) ∧
    checkOps sym (checkOps sym ops).1 = checkOps sym ops ∧
    ∀ others : List Op, others.map Op.withoutOffset = ops.map Op.withoutOffset →
      (∀ st, (run sym {} 0 ops).2 = .ok st → checkOps sym others = checkOps sym ops) ∧
      ∀ k f, FailsAt sym ops k f → ∃ f', FailsAt sym others k f' ∧
        (checkOps sym others).2 = .error f' ∧ f'.cause.kind = f.cause.kind ∧ f'.loc = f.loc ∧
        (checkOps sym others).1.take k = (checkOps sym ops).1.take k := by
  refine ⟨withoutOffset_run sym {} 0 ops, fun contracts h k access name offset loc hop => ?_,
    fun f h => ?_, fun k f h => ⟨h.checkOps_error, h.drop_eq⟩, checkOps_checkOps sym ops,
    fun others hothers => ⟨fun st hst => ?_, fun k f h => ?_⟩⟩
  · have haccept : Accepts sym ops contracts := h
    obtain ⟨top, id, d, i, m, htop, hty, hd, hm⟩ := (haccept.move hop).of_member
    have hget := Named.getElem?_of_first? hm
    refine ⟨before sym ops k, top, id, d, i, m, haccept.run_take k, htop, hty, hd, hget,
      Named.name_of_first? hm, fun j other => Named.first?_le hm, ?_, fun hcount => ?_⟩
    · rw [haccept.annotated hop, annotate_member htop hty hd hm]
    · have hi := (List.getElem?_eq_some_iff.mp hget).1
      simp only [byteLimit]
      omega
  · have hcheck : (run sym {} 0 ops).2.bind (·.finish sym) = .error f := h
    cases hrun : (run sym {} 0 ops).2 with
    | error f' =>
      rw [hrun] at hcheck
      obtain rfl : f' = f := Except.error.inj hcheck
      obtain ⟨k, st, op, hst, hop, herror⟩ := exists_error_step hrun
      exact .inl ⟨k, st, op, hst, hop, by rwa [Nat.zero_add] at herror⟩
    | ok st =>
      rw [hrun] at hcheck
      exact .inr ⟨st, rfl, hcheck⟩
  · unfold checkOps
    rw [run_congr hothers hst]
  · obtain ⟨f', h', hkind, hloc, hsame⟩ := h.congr hothers
    exact ⟨f', h', h'.checkOps_error, hkind, hloc, by rw [h'.take_eq, h.take_eq, hsame]⟩

/-- A procedure that loads the second member of a struct, and behind it an access to a member that
stands outside of every procedure. Both have a stored offset. -/
def accessBlocks (offset : Option Nat) : List Op :=
  [.procBegin 0, .member .load "b" offset, .procEnd 0 0, .member .addr "a" offset].map
    (⟨·, CheckState.nowhere⟩)

def accessSymbols : Symbols :=
  { structs := [⟨"S", [⟨"a", .int, .zero .int⟩, ⟨"b", .bool, .zero .bool⟩], CheckState.nowhere⟩]
    procs := [⟨"f", [.struct 0], [.bool], CheckState.nowhere, [], [], {}, []⟩] }

theorem stored_offsets_are_replaced :
    ((checkOps accessSymbols ((accessBlocks (some 9)).take 3)).2 = .ok [(0, ⟨1, 1⟩)] ∧
      ∃ i, (checkOps accessSymbols ((accessBlocks (some 9)).take 3)).1[1]? =
        some ⟨.member .load "b" (some (4 * i)), CheckState.nowhere⟩) ∧
    ∃ f, CheckState.FailsAt accessSymbols (accessBlocks (some 9)) 3 f ∧
      (checkOps accessSymbols (accessBlocks (some 9))).1.drop 3 = (accessBlocks (some 9)).drop 3 ∧
      ∃ f', (checkOps accessSymbols (accessBlocks none)).2 = .error f' ∧
        f'.cause.kind = f.cause.kind ∧ f'.loc = f.loc := by
  have hok : (checkOps accessSymbols ((accessBlocks (some 9)).take 3)).2 = .ok [(0, ⟨1, 1⟩)] := by
    decide +kernel
  have hfails : CheckState.FailsAt accessSymbols (accessBlocks (some 9)) 3
      ((Cause.strayOperation "member.addr +9").fault CheckState.nowhere) :=
    ⟨{ contracts := [(0, ⟨1, 1⟩)] }, _, by decide +kernel, rfl, by decide +kernel⟩
  obtain ⟨_, hoffsets, _⟩ := checking_only_annotates accessSymbols ((accessBlocks (some 9)).take 3)
  obtain ⟨_, _, _, _, i, _, _, _, _, _, _, _, _, hget, _⟩ :=
    hoffsets _ hok 1 .load "b" (some 9) CheckState.nowhere rfl
  obtain ⟨_, _, _, hdrop, _, hothers⟩ :=
    checking_only_annotates accessSymbols (accessBlocks (some 9))
  obtain ⟨_, hcongr⟩ := hothers (accessBlocks none) (by decide +kernel)
  obtain ⟨f', _, herror, hkind, hloc, _⟩ := hcongr 3 _ hfails
  exact ⟨⟨hok, i, hget⟩, _, hfails, (hdrop 3 _ hfails).2, f', herror, hkind, hloc⟩

end StackEffect
