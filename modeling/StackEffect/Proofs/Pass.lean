import Mathlib.Tactic.ByContra
import StackEffect.Checked
import StackEffect.Proofs.Effect

/-! # The pass over the operations

What a single operation can do to the state of the checker is said once, in `CheckState.Move`. A
pass that accepts its operations then has a state before each of them, and each of these moves to
the next.
-/

namespace StackEffect

def Symbols.memberOffset? (s : Symbols) (ty : Ty) (name : String) : Option Nat :=
  match ty with
  | .struct id =>
    (s.structs[id]?.bind (·.member? name)).map fun found => StructDef.offset found.1
  | _ => none

namespace CheckState

/-! ## One operation -/

/-- What checking an operation makes of the state. -/
def step (sym : Symbols) (st : CheckState) (index : Nat) (op : Op) : Except Fault CheckState :=
  (st.checkOp sym index op).1

/-- An operation with the offset of the member that it accesses in the value on top of the stack. -/
def annotate (sym : Symbols) (st : CheckState) (op : Op) : Op :=
  match op.kind with
  | .member access name _ =>
    let offset := (st.stack.peek? 0).bind fun f => sym.memberOffset? f.ty name
    { op with kind := .member access name offset }
  | _ => op

section Operation

variable {sym : Symbols} {st next : CheckState} {index : Nat} {op : Op} {f : Fault}

/-- A member access that is accepted finds the offset in the type on top of the stack. -/
theorem member_offset {access : MemberAccess} {name : String} {loc : Location} {offset : Nat}
    (h : st.member sym access name loc = .ok (offset, next)) :
    ((st.stack.peek? 0).bind fun f => sym.memberOffset? f.ty name) = some offset := by
  obtain ⟨⟨receiver, popped⟩, hpop, h⟩ := bind_eq_ok h
  have htop : st.stack.peek? 0 = some receiver := by
    unfold popOne TypeStack.pop? at hpop
    cases hframes : st.stack.frames with
    | nil => simp [hframes] at hpop
    | cons f frames =>
      simp only [hframes, Except.ok.injEq, Prod.mk.injEq] at hpop
      rw [TypeStack.peek?, hframes, ← hpop.1]
      rfl
  rw [htop, Option.bind_some]
  cases hty : receiver.ty with
  | struct id =>
    simp only [hty] at h
    split at h
    · cases h
    rename_i d hd
    split at h
    · cases h
    rename_i i m hm
    cases h
    simp [Symbols.memberOffset?, hd, hm]
  | int | bool | ptr | any =>
    simp only [hty] at h
    cases h

theorem step_eq (sym : Symbols) (st : CheckState) (index : Nat) (op : Op) :
    st.step sym index op =
      if st.current = none ∧ standsOutside op.kind = false then
        .error ((Cause.strayOperation op.kind.text).fault op.loc)
      else st.effect sym index op.kind op.loc := by
  unfold step checkOp
  split
  · rfl
  cases hkind : op.kind with
  | member access name offset =>
    simp only [effect]
    cases st.member sym access name op.loc <;> rfl
  | _ => rfl

/-- An operation that is accepted gets its offset and is the same otherwise. One that is rejected is
untouched. -/
theorem checkOp_eq (sym : Symbols) (st : CheckState) (index : Nat) (op : Op) :
    st.checkOp sym index op =
      match st.step sym index op with
      | .ok next => (.ok next, st.annotate sym op)
      | .error f => (.error f, op) := by
  unfold step checkOp annotate
  split
  · rfl
  cases hkind : op.kind with
  | member access name offset =>
    dsimp only
    cases hmember : st.member sym access name op.loc with
    | error f => rfl
    | ok found => simp only [member_offset hmember]
  | _ =>
    dsimp only
    split
    · rename_i hok
      rw [hok]
    · rename_i herror
      rw [herror]

theorem run_cons_ok (h : st.step sym index op = .ok next) (ops : List Op) :
    run sym st index (op :: ops) =
      (st.annotate sym op :: (run sym next (index + 1) ops).1,
        (run sym next (index + 1) ops).2) := by
  rw [run, checkOp_eq, h]

theorem run_cons_error (h : st.step sym index op = .error f) (ops : List Op) :
    run sym st index (op :: ops) = (op :: ops, .error f) := by
  rw [run, checkOp_eq, h]

end Operation

/-! ## Moves -/

/-- The moves of the checker, one for each kind of operation that it accepts. -/
inductive Move (sym : Symbols) (index : Nat) (st : CheckState) : Op → CheckState → Prop
  | plain {kind : OpKind} {loc : Location} {args rest res : List Frame} (hk : kind.isPlain)
      (hc : st.current ≠ none) (hf : st.stack.frames = args.reverse ++ rest)
      (hlen : args.length = kind.operands sym)
      (hout : kind.outcome? sym st.bound (args.map (·.ty)) = some (res.map (·.ty))) :
      Move sym index st ⟨kind, loc⟩ (st.replace args.length res)
  | ifBegin {loc : Location} {f : Frame} {rest : List Frame} (hc : st.current ≠ none)
      (hf : st.stack.frames = f :: rest) (hty : f.ty = .bool) :
      Move sym index st ⟨.ifBegin, loc⟩ { st with
        stack := (st.stack.popped 1).resetCounters
        branches := ⟨index, loc, st.stack.popped 1, st.bindings, none⟩ :: st.branches }
  | ifElse {loc : Location} {b : Branch} {branches : List Branch} (hc : st.current ≠ none)
      (hb : st.branches = b :: branches) (hend : b.thenEnd = none) {thenEnd : BranchEnd}
      (hthen : thenEnd = ⟨st.stack.types, st.stack.height, st.stack.low, loc⟩) :
      Move sym index st ⟨.ifElse b.opener, loc⟩ { st with
        stack := b.entry.resetCounters
        bindings := b.bindings
        branches := { b with thenEnd := some thenEnd } :: branches }
  | ifEnd {loc : Location} {b : Branch} {branches : List Branch} (hc : st.current ≠ none)
      (hb : st.branches = b :: branches) (hend : b.thenEnd = none)
      (htypes : b.entry.types = st.stack.types) :
      Move sym index st ⟨.ifEnd b.opener, loc⟩
        (({ st with branches := branches } : CheckState).closeBranch b (-st.stack.low).toNat
          ((-st.stack.low).toNat + st.stack.height).toNat)
  | elseEnd {loc : Location} {b : Branch} {branches : List Branch} {thenEnd : BranchEnd}
      (hc : st.current ≠ none) (hb : st.branches = b :: branches) (hend : b.thenEnd = some thenEnd)
      (htypes : thenEnd.types = st.stack.types) :
      Move sym index st ⟨.elseEnd b.opener, loc⟩
        (({ st with branches := branches } : CheckState).closeBranch b
          (-min thenEnd.low st.stack.low).toNat
          (max thenEnd.height st.stack.height - min thenEnd.low st.stack.low).toNat)
  | bind {loc : Location} {args rest : List Frame} (hc : st.current ≠ none)
      (hf : st.stack.frames = args.reverse ++ rest) :
      Move sym index st ⟨.bind args.length, loc⟩ { st with
        stack := st.stack.popped args.length
        bindings := args.reverse ++ st.bindings }
  | unbind {loc : Location} {count : Nat} (hc : st.current ≠ none)
      (hcount : count ≤ st.bindings.length) :
      Move sym index st ⟨.unbind count, loc⟩ { st with bindings := st.bindings.drop count }
  | procBegin {loc : Location} {id : Nat} {p : Procedure} (hc : st.current = none)
      (hp : sym.procs[id]? = some p) :
      Move sym index st ⟨.procBegin id, loc⟩ { st with
        stack := .seed p.ins p.loc
        bindings := []
        current := some id
        contracts := ContractTable.insert index ⟨p.ins.length, p.outs.length⟩ st.contracts }
  | procEnd {loc : Location} {id frame : Nat} {p : Procedure} (hc : st.current ≠ none)
      (hp : sym.procs[id]? = some p) (hb : st.branches = []) (htypes : st.stack.types = p.outs) :
      Move sym index st ⟨.procEnd id frame, loc⟩ { st with
        stack := {}
        bindings := []
        current := none }

variable {sym : Symbols} {st next : CheckState} {index : Nat} {op : Op} {kind : OpKind}
  {loc : Location}

/-- The operands of an accepted plain operation and what it leaves in their place. -/
theorem effect_plain (hk : kind.isPlain) (hs : st.stack.Settled)
    (h : st.effect sym index kind loc = .ok next) :
    ∃ args rest res : List Frame, st.stack.frames = args.reverse ++ rest ∧
      args.length = kind.operands sym ∧
      kind.outcome? sym st.bound (args.map (·.ty)) = some (res.map (·.ty)) ∧
      next = st.replace args.length res := by
  rcases effect_cases index loc hk hs with
    ⟨f, hf, _⟩ | ⟨args, rest, hf, hlen, ⟨f, hfault, _⟩ | ⟨res, hout, hok⟩⟩
  · rw [h] at hf
    cases hf
  · rw [h] at hfault
    cases hfault
  · rw [h] at hok
    exact ⟨args, rest, res, hf, hlen, hout, Except.ok.inj hok⟩

theorem procAt_eq_ok {id : Nat} {p : Procedure} (h : sym.procAt id loc = .ok p) :
    sym.procs[id]? = some p := by
  unfold Symbols.procAt at h
  split at h
  · rename_i q hq
    rw [hq, Except.ok.inj h]
  · cases h

theorem popOne_eq_ok {what : String} {f : Frame} (h : st.popOne what loc = .ok (f, next)) :
    st.stack.frames = f :: st.stack.frames.tail ∧
      next = { st with stack := st.stack.popped 1 } := by
  simp only [popOne, TypeStack.pop?_eq] at h
  cases hf : st.stack.frames with
  | nil => simp [hf] at h
  | cons g rest =>
    simp only [hf, List.head?_cons, Option.map_some, Except.ok.injEq, Prod.mk.injEq] at h
    obtain ⟨rfl, rfl⟩ := h
    exact ⟨rfl, rfl⟩

theorem pop_eq_ok (hs : st.stack.Settled) {count : Nat} {what : String} {args : List Frame}
    (h : st.pop count what loc = .ok (args, next)) :
    (∃ rest, st.stack.frames = args.reverse ++ rest) ∧ args.length = count ∧
      next = { st with stack := st.stack.popped count } := by
  simp only [pop, TypeStack.popMany?_eq hs] at h
  split at h
  · rename_i fs below hpop
    split at hpop
    · rename_i hle
      cases hpop
      cases h
      refine ⟨⟨st.stack.frames.drop count, ?_⟩, by simp [Nat.min_eq_left hle], rfl⟩
      rw [List.reverse_reverse, List.take_append_drop]
    · cases hpop
  · cases h

theorem popBranch_eq_ok {opener : Nat} {b : Branch} (h : st.popBranch opener loc = .ok (b, next)) :
    ∃ branches, st.branches = b :: branches ∧ b.opener = opener ∧
      next = { st with branches := branches } := by
  unfold popBranch at h
  split at h
  · cases h
  · rename_i b' branches hb
    split at h
    · rename_i hopener
      cases h
      exact ⟨branches, hb, hopener, rfl⟩
    · cases h

theorem openIf_move (hc : st.current ≠ none) (h : st.openIf sym index loc = .ok next) :
    Move sym index st ⟨.ifBegin, loc⟩ next := by
  obtain ⟨⟨f, st'⟩, hpop, h⟩ := bind_eq_ok h
  obtain ⟨hf, rfl⟩ := popOne_eq_ok hpop
  obtain ⟨_, hty, h⟩ := bind_eq_ok h
  cases h
  refine .ifBegin hc hf ?_
  by_contra hne
  simp [Symbols.expectType, hne] at hty

theorem enterElse_move {opener : Nat} (hc : st.current ≠ none)
    (h : st.enterElse opener loc = .ok next) : Move sym index st ⟨.ifElse opener, loc⟩ next := by
  unfold enterElse at h
  split at h
  · cases h
  · rename_i b branches hb
    split at h
    · cases h
    · rename_i hmatch
      simp only [not_or, not_not, Option.not_isSome_iff_eq_none] at hmatch
      cases h
      obtain ⟨rfl, hend⟩ := hmatch
      exact .ifElse hc hb hend rfl

theorem closeIf_move {opener : Nat} (hc : st.current ≠ none)
    (h : st.closeIf sym opener loc = .ok next) : Move sym index st ⟨.ifEnd opener, loc⟩ next := by
  obtain ⟨⟨b, st'⟩, hpop, h⟩ := bind_eq_ok h
  obtain ⟨branches, hb, rfl, rfl⟩ := popBranch_eq_ok hpop
  simp only at h
  split at h
  · cases h
  · rename_i hend
    split at h
    · rename_i htypes
      cases h
      exact .ifEnd hc hb (by simpa using hend) htypes
    · cases h

theorem closeElse_move {opener : Nat} (hc : st.current ≠ none)
    (h : st.closeElse sym opener loc = .ok next) :
    Move sym index st ⟨.elseEnd opener, loc⟩ next := by
  obtain ⟨⟨b, st'⟩, hpop, h⟩ := bind_eq_ok h
  obtain ⟨branches, hb, rfl, rfl⟩ := popBranch_eq_ok hpop
  simp only at h
  split at h
  · cases h
  · rename_i thenEnd hend
    split at h
    · rename_i htypes
      cases h
      exact .elseEnd hc hb hend htypes
    · cases h

theorem bind_move {count : Nat} (hs : st.stack.Settled) (hc : st.current ≠ none)
    (h : st.bind count loc = .ok next) : Move sym index st ⟨.bind count, loc⟩ next := by
  obtain ⟨⟨args, st'⟩, hpop, h⟩ := bind_eq_ok h
  obtain ⟨⟨rest, hf⟩, rfl, rfl⟩ := pop_eq_ok hs hpop
  cases h
  exact .bind hc hf

theorem unbind_move {count : Nat} (hc : st.current ≠ none) (h : st.unbind count loc = .ok next) :
    Move sym index st ⟨.unbind count, loc⟩ next := by
  unfold unbind at h
  split at h
  · cases h
  · rename_i hcount
    cases h
    exact .unbind hc (Nat.not_lt.mp hcount)

theorem beginProc_move {id : Nat} (h : st.beginProc sym index id loc = .ok next) :
    Move sym index st ⟨.procBegin id, loc⟩ next := by
  obtain ⟨p, hp, h⟩ := bind_eq_ok h
  split at h
  · obtain ⟨outer, _, h⟩ := bind_eq_ok h
    cases h
  · rename_i hnone
    cases h
    exact .procBegin hnone (procAt_eq_ok hp)

theorem endProc_move {id frame : Nat} (hc : st.current ≠ none)
    (h : st.endProc sym id loc = .ok next) : Move sym index st ⟨.procEnd id frame, loc⟩ next := by
  obtain ⟨p, hp, h⟩ := bind_eq_ok h
  simp only at h
  split at h
  · cases h
  · rename_i hb
    split at h
    · rename_i htypes
      cases h
      exact .procEnd hc (procAt_eq_ok hp) hb htypes
    · cases h

/-- Every step of the checker is one of its moves. -/
theorem step_move (hs : st.stack.Settled) (h : st.step sym index op = .ok next) :
    Move sym index st op next := by
  obtain ⟨kind, loc⟩ := op
  rw [step_eq] at h
  split at h
  · cases h
  rename_i hcur
  have hc (hk : standsOutside kind = false) : st.current ≠ none := fun hnone => hcur ⟨hnone, hk⟩
  by_cases hk : kind.isPlain
  · obtain ⟨args, rest, res, hf, hlen, hout, rfl⟩ := effect_plain hk hs h
    exact .plain hk (hc (by cases kind <;> first | rfl | cases hk)) hf hlen hout
  cases kind with
  | ifBegin => exact openIf_move (hc rfl) h
  | ifElse opener => exact enterElse_move (hc rfl) h
  | ifEnd opener => exact closeIf_move (hc rfl) h
  | elseEnd opener => exact closeElse_move (hc rfl) h
  | bind count => exact bind_move hs (hc rfl) h
  | unbind count => exact unbind_move (hc rfl) h
  | procBegin id => exact beginProc_move h
  | procEnd id frame => exact endProc_move (hc rfl) h
  | _ => exact absurd rfl hk

/-- Inside a procedure a step is the effect of its operation. -/
theorem step_inside (sym : Symbols) (index : Nat) (op : Op) (hc : st.current ≠ none) :
    st.step sym index op = st.effect sym index op.kind op.loc := by
  simp [step_eq, hc]

/-- The moves at the borders of blocks are steps of the checker. -/
theorem Move.step_eq (h : Move sym index st op next) (hs : st.stack.Settled)
    (hk : op.kind.isPlain = false) : st.step sym index op = .ok next := by
  cases h with
  | plain hplain => simp [hplain] at hk
  | ifBegin hc hf hty =>
    rw [step_inside _ _ _ hc]
    simp [effect, openIf, popOne_ok hf, Symbols.expectType, hty]
  | ifElse hc hb hend hthen =>
    rw [step_inside _ _ _ hc]
    simp [effect, enterElse, hb, hend, hthen]
  | ifEnd hc hb hend htypes =>
    rw [step_inside _ _ _ hc]
    simp [effect, closeIf, popBranch, hb, hend, htypes]
  | elseEnd hc hb hend htypes =>
    rw [step_inside _ _ _ hc]
    simp [effect, closeElse, popBranch, hb, hend, htypes]
  | bind hc hf =>
    rw [step_inside _ _ _ hc]
    simp [effect, CheckState.bind, pop_ok hs hf]
  | unbind hc hcount =>
    rw [step_inside _ _ _ hc]
    simp [effect, CheckState.unbind, Nat.not_lt.mpr hcount]
  | procBegin hc hp => simp [step_eq, standsOutside, effect, beginProc, Symbols.procAt, hp, hc]
  | procEnd hc hp hb htypes =>
    rw [step_inside _ _ _ hc]
    simp [effect, endProc, Symbols.procAt, hp, hb, htypes]

theorem Move.settled (h : Move sym index st op next) (hs : st.stack.Settled) :
    next.stack.Settled := by
  cases h with
  | plain hk hc hf hlen hout =>
    simp only [replace, TypeStack.pushAll_eq, TypeStack.Settled, TypeStack.popped]
    omega
  | ifBegin hc hf hty => exact Int.le_refl 0
  | ifElse hc hb hend hthen => exact Int.le_refl 0
  | ifEnd | elseEnd =>
    simp only [closeBranch, TypeStack.absorb, TypeStack.restoreCounters, TypeStack.Settled]
    omega
  | bind hc hf => exact st.stack.popped_settled _
  | unbind hc hcount => exact hs
  | procBegin hc hp => exact Int.le_refl 0
  | procEnd hc hp hb htypes => exact Int.le_refl 0

/-- The branch `b`, which `opener` opened and which is the innermost one, is closed. Values and
bindings stay as they are. -/
structure Closing (opener : Nat) (b : Branch) (st next : CheckState) : Prop where
  inside : st.current ≠ none
  branches : st.branches = b :: next.branches
  opener : b.opener = opener
  frames : next.stack.frames = st.stack.frames
  bindings : next.bindings = st.bindings
  current : next.current = st.current

theorem Move.of_ifEnd (h : Move sym index st op next) {opener : Nat} (hk : op.kind = .ifEnd opener) :
    ∃ b, Closing opener b st next ∧ b.thenEnd = none ∧ b.entry.types = st.stack.types := by
  cases h with
  | plain hplain =>
    cases hk
    cases hplain
  | ifEnd hc hb hend htypes =>
    cases hk
    exact ⟨_, ⟨hc, hb, rfl, rfl, rfl, rfl⟩, hend, htypes⟩
  | ifBegin | ifElse | elseEnd | bind | unbind | procBegin | procEnd => cases hk

theorem Move.of_elseEnd (h : Move sym index st op next) {opener : Nat}
    (hk : op.kind = .elseEnd opener) :
    ∃ b thenEnd, Closing opener b st next ∧ b.thenEnd = some thenEnd ∧
      thenEnd.types = st.stack.types := by
  cases h with
  | plain hplain =>
    cases hk
    cases hplain
  | elseEnd hc hb hend htypes =>
    cases hk
    exact ⟨_, _, ⟨hc, hb, rfl, rfl, rfl, rfl⟩, hend, htypes⟩
  | ifBegin | ifElse | ifEnd | bind | unbind | procBegin | procEnd => cases hk

theorem Move.of_ifElse (h : Move sym index st op next) {opener : Nat}
    (hk : op.kind = .ifElse opener) :
    ∃ b branches, st.branches = b :: branches ∧ b.opener = opener ∧ b.thenEnd = none ∧
      next.stack.frames = b.entry.frames ∧ next.bindings = b.bindings ∧
      next.current = st.current := by
  cases h with
  | plain hplain =>
    cases hk
    cases hplain
  | ifElse hc hb hend =>
    cases hk
    exact ⟨_, _, hb, rfl, hend, rfl, rfl, rfl⟩
  | ifBegin | ifEnd | elseEnd | bind | unbind | procBegin | procEnd => cases hk

theorem run_length (sym : Symbols) (st : CheckState) (index : Nat) (ops : List Op) :
    (run sym st index ops).1.length = ops.length := by
  induction ops generalizing st index with
  | nil => rfl
  | cons op ops ih =>
    cases hstep : st.step sym index op with
    | error f => simp [run_cons_error hstep]
    | ok next => simp [run_cons_ok hstep, ih]

theorem run_append_ok {as bs : List Op} (h : (run sym st index as).2 = .ok next) :
    run sym st index (as ++ bs) =
      ((run sym st index as).1 ++ (run sym next (index + as.length) bs).1,
        (run sym next (index + as.length) bs).2) := by
  induction as generalizing st index with
  | nil =>
    cases h
    rfl
  | cons a as ih =>
    cases hstep : st.step sym index a with
    | error f => simp [run_cons_error hstep] at h
    | ok mid =>
      rw [run_cons_ok hstep] at h
      rw [List.cons_append, run_cons_ok hstep, run_cons_ok hstep, ih h]
      simp [Nat.add_comm, Nat.add_left_comm]

/-- A pass that accepts a list has accepted every part at its front. -/
theorem run_append_eq_ok {as bs : List Op} (h : (run sym st index (as ++ bs)).2 = .ok next) :
    ∃ mid, (run sym st index as).2 = .ok mid := by
  induction as generalizing st index with
  | nil => exact ⟨st, rfl⟩
  | cons a as ih =>
    cases hstep : st.step sym index a with
    | error f => simp [run_cons_error hstep] at h
    | ok mid =>
      rw [List.cons_append, run_cons_ok hstep] at h
      rw [run_cons_ok hstep]
      exact ih h

/-- A pass that gets behind an operation has made a step at it. -/
theorem run_take_succ {ops : List Op} {k : Nat}
    (h : (run sym {} 0 (ops.take (k + 1))).2 = .ok next) (hop : ops[k]? = some op) :
    ∃ st, (run sym {} 0 (ops.take k)).2 = .ok st ∧ st.step sym k op = .ok next := by
  have hlt : k < ops.length := (List.getElem?_eq_some_iff.mp hop).1
  rw [List.take_add_one, hop, Option.toList_some] at h
  obtain ⟨st, hst⟩ := run_append_eq_ok h
  rw [run_append_ok hst, Nat.zero_add, List.length_take, Nat.min_eq_left (Nat.le_of_lt hlt)] at h
  refine ⟨st, hst, ?_⟩
  cases hstep : st.step sym k op with
  | error f => simp [run_cons_error hstep] at h
  | ok next =>
    rw [run_cons_ok hstep] at h
    exact h

/-- A move enters no procedure but one of the tables. -/
theorem Move.current_lt (hmove : Move sym index st op next)
    (h : ∀ id, st.current = some id → id < sym.procs.length) :
    ∀ id, next.current = some id → id < sym.procs.length := by
  cases hmove with
  | procBegin hc hp =>
    rintro id ⟨⟩
    exact (List.getElem?_eq_some_iff.mp hp).1
  | procEnd => simp
  | plain | ifBegin | ifElse | ifEnd | elseEnd | bind | unbind => exact h

/-- The state of a pass before the operation with a given index. -/
def before (sym : Symbols) (ops : List Op) (k : Nat) : CheckState :=
  (run sym {} 0 (ops.take k)).2.toOption.getD {}

def Accepts (sym : Symbols) (ops : List Op) (contracts : ContractTable) : Prop :=
  (checkOps sym ops).2 = .ok contracts

variable {ops : List Op} {contracts : ContractTable} {k : Nat}

theorem Accepts.run_take (h : Accepts sym ops contracts) (k : Nat) :
    (run sym {} 0 (ops.take k)).2 = .ok (before sym ops k) := by
  obtain ⟨last, hlast, _⟩ := bind_eq_ok h
  rw [← List.take_append_drop k ops] at hlast
  obtain ⟨st, hst⟩ := run_append_eq_ok hlast
  rw [before, hst]
  rfl

theorem Accepts.step (h : Accepts sym ops contracts) (hop : ops[k]? = some op) :
    (before sym ops k).step sym k op = .ok (before sym ops (k + 1)) := by
  obtain ⟨st, hst, hstep⟩ := run_take_succ (h.run_take (k + 1)) hop
  rw [h.run_take k] at hst
  cases hst
  exact hstep

/-- What holds at the start and is kept by every move of an accepted pass holds at each point. -/
theorem Accepts.induct (h : Accepts sym ops contracts) {P : Nat → CheckState → Prop} (h0 : P 0 {})
    (hstep : ∀ k op, ops[k]? = some op → (before sym ops k).stack.Settled →
      P k (before sym ops k) → Move sym k (before sym ops k) op (before sym ops (k + 1)) →
      P (k + 1) (before sym ops (k + 1))) :
    ∀ k ≤ ops.length, (before sym ops k).stack.Settled ∧ P k (before sym ops k) := by
  intro k hk
  induction k with
  | zero => exact ⟨Int.le_refl 0, h0⟩
  | succ k ih =>
    obtain ⟨hs, hP⟩ := ih (Nat.le_of_succ_le hk)
    have hop : ops[k]? = some ops[k] := List.getElem?_eq_getElem hk
    have hmove := step_move hs (h.step hop)
    exact ⟨hmove.settled hs, hstep k _ hop hs hP hmove⟩

theorem Accepts.settled (h : Accepts sym ops contracts) (hk : k ≤ ops.length) :
    (before sym ops k).stack.Settled :=
  (h.induct (P := fun _ _ => True) trivial (fun _ _ _ _ _ _ => trivial) k hk).1

theorem Accepts.move (h : Accepts sym ops contracts) (hop : ops[k]? = some op) :
    Move sym k (before sym ops k) op (before sym ops (k + 1)) :=
  step_move (h.settled (Nat.le_of_lt (List.getElem?_eq_some_iff.mp hop).1)) (h.step hop)

end CheckState

end StackEffect
