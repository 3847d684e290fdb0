import StackEffect.Proofs.Annotation
import StackEffect.Proofs.Branches
import StackEffect.Proofs.Machine

/-! # Accepted programs are safe

A run of an accepted program never stops short. Each activation finds the values and bindings that
the checker has found before the same operation, on top of whatever its caller has left on the
stack, and it returns with the types that its procedure declares.
-/

namespace StackEffect

section Annotate

variable {sym : Symbols} {st : CheckState} {ops : List Op} {op : Op} {index : Nat}
  {contracts : ContractTable} {blocks after : List Block}

/-- Operations are still accepted once the offsets of members are filled in. -/
theorem CheckState.Accepts.annotate (h : CheckState.Accepts sym ops contracts) :
    CheckState.Accepts sym (checkOps sym ops).1 contracts := by
  rw [CheckState.Accepts, CheckState.checkOps_checkOps]
  exact h

theorem Nests.annotate (h : Nests index op blocks after) (st : CheckState) :
    Nests index (st.annotate sym op) blocks after := by
  obtain ⟨kind, loc⟩ := op
  cases kind with
  | member access name offset =>
    cases h with
    | plain hk hin hdepth => exact .plain rfl hin (fun d hd => by cases hd)
  | _ => exact h

theorem NestsAll.annotate (h : NestsAll index ops blocks after) (st : CheckState) :
    NestsAll index (CheckState.run sym st index ops).1 blocks after := by
  induction h generalizing st with
  | nil => exact .nil
  | @cons index op ops blocks mid after hfirst hrest ih =>
    cases hstep : st.step sym index op with
    | error f =>
      rw [CheckState.run_cons_error hstep]
      exact .cons hfirst hrest
    | ok next =>
      rw [CheckState.run_cons_ok hstep]
      exact .cons (hfirst.annotate st) (ih next)

end Annotate

/-- Operations that pass the check, with all blocks nested and a body for each procedure. -/
structure Runnable (sym : Symbols) (ops : List Op) (contracts : ContractTable) : Prop where
  accepted : CheckState.Accepts sym ops contracts
  nested : NestsAll 0 ops [] []
  begun : ∀ id < sym.procs.length, ∃ op ∈ ops, op.kind = .procBegin id

theorem Checked.runnable_of_source {file source : String} {c : Checked}
    (h : Checked.ofSource file source = .ok c) :
    Runnable c.program.symbols c.program.ops c.contracts := by
  obtain ⟨p, hp, hc⟩ := bind_eq_ok h
  have hsound := Program.sound_of_source hp
  obtain ⟨contracts, haccepts, rfl⟩ := map_eq_ok hc
  have haccepts : CheckState.Accepts p.symbols p.ops contracts := haccepts
  refine ⟨haccepts.annotate, hsound.nested.annotate {}, fun id hid => ?_⟩
  obtain ⟨⟨kind, loc⟩, hmem, rfl⟩ := hsound.begun id hid
  obtain ⟨k, hop⟩ := List.mem_iff_getElem?.mp hmem
  exact ⟨_, List.mem_of_getElem? (haccepts.annotated hop), rfl⟩

namespace CheckState

variable {sym : Symbols} {ops : List Op} {contracts : ContractTable} {st next : CheckState}
  {op : Op} {id k : Nat} {base stack bound : List Ty}

/-- An activation of procedure `id` above `base` has the values and bindings of a state. -/
structure Matches (st : CheckState) (id : Nat) (base stack bound : List Ty) : Prop where
  current : st.current = some id
  stack : stack = st.stack.frames.map (·.ty) ++ base
  bound : bound = st.bound

theorem Matches.alike (h : st.Matches id base stack bound) (halike : Alike st next) :
    next.Matches id base stack bound := by
  refine ⟨halike.current.trans h.current, ?_, h.bound.trans halike.bound.symm⟩
  have htypes := halike.types
  simp only [TypeStack.types, List.reverse_inj] at htypes
  rw [h.stack, htypes]

/-- Inside a procedure there is an operation to come. -/
theorem Accepts.exists_op (h : Accepts sym ops contracts)
    (hc : (before sym ops k).current ≠ none) : ∃ op, ops[k]? = some op := by
  refine Option.ne_none_iff_exists'.mp fun hnone => hc ?_
  have hle : ops.length ≤ k := List.getElem?_eq_none_iff.mp hnone
  have hlast : before sym ops k = before sym ops ops.length := by
    rw [before, before, List.take_of_length_le hle, List.take_length]
  rw [hlast]
  exact h.ended.1

end CheckState

open CheckState

variable {sym : Symbols} {ops : List Op} {contracts : ContractTable} {m : Machine} {op : Op}
  {id : Nat} {base : List Ty}

/-- Away from calls and ends of procedures a step stays in its activation, which then has the values
and bindings that the checker has found where the step leads. -/
theorem Runnable.step_inside (h : Runnable sym ops contracts) (hop : ops[m.top.pc]? = some op)
    (hm : (before sym ops m.top.pc).Matches id base m.stack m.top.bound)
    (hcall : ∀ q, op.kind ≠ .call q) (hend : ∀ q frame, op.kind ≠ .procEnd q frame) (taken : Bool) :
    ∃ next, m.step sym ops taken = some next ∧ next.callers = m.callers ∧
      (before sym ops next.top.pc).Matches id base next.stack next.top.bound := by
  have hmove := h.accepted.move hop
  rw [Machine.step_of hop]
  obtain ⟨hcurrent, hstack, hbound⟩ := hm
  generalize hnext : before sym ops (m.top.pc + 1) = next at hmove
  -- All steps but jumps lead to the next operation, before which the checker is in the state `next`.
  have hadvance {stack bound : List Ty} (hm : next.Matches id base stack bound) :
      (before sym ops (m.top.pc + 1)).Matches id base stack bound := by rwa [hnext]
  cases hmove with
  | @plain kind loc args rest res hk hc hf hlen hout =>
    have hframes : m.stack = (args.map (·.ty)).reverse ++ (rest.map (·.ty) ++ base) := by
      simp [hstack, hf]
    refine ⟨_, Machine.perform_plain hk hcall hframes (by simpa using hlen) (by rwa [hbound]), rfl,
      hadvance ⟨hcurrent, ?_, hbound⟩⟩
    simp [Machine.advance, replace, TypeStack.pushAll_eq, TypeStack.popped, hf]
  | @ifBegin loc f rest hc hf hty =>
    have hcondition : m.stack = .bool :: (rest.map (·.ty) ++ base) := by simp [hstack, hf, hty]
    have hafter : (before sym ops (m.top.pc + 1)).Matches id base (rest.map (·.ty) ++ base)
        m.top.bound :=
      hadvance ⟨hcurrent, by simp [TypeStack.resetCounters, TypeStack.popped, hf], hbound⟩
    cases taken with
    | true =>
      refine ⟨m.advance (rest.map (·.ty) ++ base) m.top.bound, ?_, rfl, hafter⟩
      simp [Machine.perform, Machine.branch, hcondition]
    | false =>
      obtain ⟨t, target, hindex, htarget, hkind⟩ := Machine.exists_index?
        (h.accepted.exists_skip (i := m.top.pc) (by simp [hop]))
      have halike := h.accepted.alike_skipped h.nested htarget (by simpa using hkind)
      refine ⟨m.jump (rest.map (·.ty) ++ base) t, ?_, rfl, hafter.alike halike⟩
      simp [Machine.perform, Machine.branch, hcondition, hindex]
  | @ifElse loc b branches hc hb hthen =>
    have helse : (ops[m.top.pc]?).map (·.kind) = some (.ifElse b.opener) := by simp [hop]
    obtain ⟨t, target, hindex, htarget, hkind⟩ := Machine.exists_index?
      (h.accepted.exists_join h.nested helse)
    have halike := h.accepted.alike_joined h.nested helse htarget (by simpa using hkind)
    exact ⟨m.jump m.stack t, by simp [Machine.perform, hindex], rfl,
      Matches.alike ⟨hcurrent, hstack, hbound⟩ halike⟩
  | ifEnd | elseEnd =>
    exact ⟨m.advance m.stack m.top.bound, rfl, rfl, hadvance ⟨hcurrent, hstack, hbound⟩⟩
  | @bind loc args rest hc hf =>
    have hframes : m.stack = (args.map (·.ty)).reverse ++ (rest.map (·.ty) ++ base) := by
      simp [hstack, hf]
    refine ⟨m.advance (rest.map (·.ty) ++ base) ((args.map (·.ty)).reverse ++ m.top.bound), ?_, rfl,
      hadvance ⟨hcurrent, ?_, ?_⟩⟩
    · simp [Machine.perform, hframes]
    · simp [Machine.advance, TypeStack.popped, hf]
    · simp [Machine.advance, hbound, CheckState.bound]
  | @unbind loc count hc hcount =>
    have hle : count ≤ m.top.bound.length := by simpa [hbound, CheckState.bound] using hcount
    refine ⟨m.advance m.stack (m.top.bound.drop count), by simp [Machine.perform, hle], rfl,
      hadvance ⟨hcurrent, hstack, ?_⟩⟩
    simp [Machine.advance, hbound, CheckState.bound]
  | procBegin hc hp =>
    rw [hcurrent] at hc
    cases hc
  | procEnd => exact absurd rfl (hend _ _)

/-- An activation of procedure `id` above `base` is about to begin, or has what the checker has
found before the same operation. -/
inductive Standing (sym : Symbols) (ops : List Op) (id : Nat) (base stack : List Ty)
    (a : Activation) : Prop
  | starting {p : Procedure} (hp : sym.procs[id]? = some p)
      (hop : (ops[a.pc]?).map (·.kind) = some (.procBegin id))
      (hstack : stack = p.ins.reverse ++ base) (hbound : a.bound = [])
  | inside (h : (before sym ops a.pc).Matches id base stack a.bound)

/-- The callers of an activation of procedure `id` above `base`. Each of them will have what the
checker has found behind its call, once the procedure it called has left its outputs. The run began
with procedure `root` above `below`. -/
inductive Waiting (sym : Symbols) (ops : List Op) (root : Nat) (below : List Ty) :
    Nat → List Ty → List Activation → Prop
  | root : Waiting sym ops root below root below []
  | caller {id q : Nat} {base rest : List Ty} {p : Procedure} {a : Activation}
      {callers : List Activation} (hp : sym.procs[q]? = some p)
      (ha : (before sym ops a.pc).Matches id base (p.outs.reverse ++ rest) a.bound)
      (hbase : base <:+ rest) (h : Waiting sym ops root below id base callers) :
      Waiting sym ops root below q rest (a :: callers)

theorem Waiting.suffix {root : Nat} {below : List Ty} {callers : List Activation}
    (h : Waiting sym ops root below id base callers) : below <:+ base := by
  induction h with
  | root => exact List.suffix_refl _
  | caller _ _ hbase _ ih => exact ih.trans hbase

/-- A run that began with procedure `root` above `below` is in order. -/
def Running (sym : Symbols) (ops : List Op) (root : Nat) (below : List Ty) (m : Machine) : Prop :=
  ∃ id base, Standing sym ops id base m.stack m.top ∧ Waiting sym ops root below id base m.callers

theorem Runnable.standing_start (h : Runnable sym ops contracts) {p : Procedure}
    (hp : sym.procs[id]? = some p) (base : List Ty) :
    ∃ start, Machine.index? ops [.procBegin id] = some start ∧
      Standing sym ops id base (p.ins.reverse ++ base) ⟨start, []⟩ := by
  have hbegun : ∃ op ∈ ops, op.kind ∈ [OpKind.procBegin id] := by
    simpa using h.begun id (List.getElem?_eq_some_iff.mp hp).1
  obtain ⟨start, op, hindex, hop, hkind⟩ := Machine.exists_index? hbegun
  refine ⟨start, hindex, .starting hp ?_ rfl rfl⟩
  simpa [hop] using hkind

/-- The first step of an activation finds the declared inputs. -/
theorem Runnable.step_start (h : Runnable sym ops contracts) {p : Procedure}
    (hp : sym.procs[id]? = some p) (hop : (ops[m.top.pc]?).map (·.kind) = some (.procBegin id))
    (hstack : m.stack = p.ins.reverse ++ base) (hbound : m.top.bound = []) (taken : Bool) :
    m.step sym ops taken = some (m.advance m.stack m.top.bound) ∧
      (before sym ops (m.top.pc + 1)).Matches id base m.stack m.top.bound := by
  obtain ⟨op, hop, hkind⟩ := Option.map_eq_some_iff.mp hop
  refine ⟨by rw [Machine.step_of hop, hkind]; rfl, ?_⟩
  have hmove := h.accepted.move hop
  generalize before sym ops (m.top.pc + 1) = next at hmove
  cases hmove with
  | plain hk =>
    cases hkind
    cases hk
  | @procBegin loc q p' hc hp' =>
    cases hkind
    rw [hp] at hp'
    cases hp'
    exact ⟨rfl, by simp [hstack, TypeStack.seed, Function.comp_def], hbound⟩
  | ifBegin | ifElse | ifEnd | elseEnd | bind | unbind | procEnd => cases hkind

/-- A call begins an activation above what it leaves of the stack. -/
theorem Runnable.step_call (h : Runnable sym ops contracts) {q : Nat}
    (hop : ops[m.top.pc]? = some op) (hkind : op.kind = .call q)
    (hm : (before sym ops m.top.pc).Matches id base m.stack m.top.bound) (taken : Bool) :
    ∃ p start rest, sym.procs[q]? = some p ∧
      m.step sym ops taken =
        some ⟨m.stack, ⟨start, []⟩, ⟨m.top.pc + 1, m.top.bound⟩ :: m.callers⟩ ∧
      Standing sym ops q rest m.stack ⟨start, []⟩ ∧ base <:+ rest ∧
      (before sym ops (m.top.pc + 1)).Matches id base (p.outs.reverse ++ rest) m.top.bound := by
  have hmove := h.accepted.move hop
  rw [Machine.step_of hop]
  obtain ⟨hcurrent, hstack, hbound⟩ := hm
  generalize before sym ops (m.top.pc + 1) = next at hmove ⊢
  cases hmove with
  | @plain kind loc args rest res hk hc hf hlen hout =>
    cases hkind
    obtain ⟨p, hp, hout⟩ := Option.bind_eq_some_iff.mp hout
    split at hout
    · rename_i hargs
      have hres : p.outs = res.map (·.ty) := Option.some.inj hout
      have hins : m.stack = p.ins.reverse ++ (rest.map (·.ty) ++ base) := by
        simp [hstack, hf, ← hargs]
      obtain ⟨start, hindex, hstanding⟩ := h.standing_start hp (rest.map (·.ty) ++ base)
      refine ⟨p, start, rest.map (·.ty) ++ base, hp, ?_, by rwa [hins], List.suffix_append _ _, ?_⟩
      · simp [Machine.perform, Machine.call, hp, hindex, hins]
      · refine ⟨hcurrent, ?_, hbound⟩
        simp [replace, TypeStack.pushAll_eq, TypeStack.popped, hf, hres]
    · cases hout
  | ifBegin | ifElse | ifEnd | elseEnd | bind | unbind | procBegin | procEnd => cases hkind

/-- At the end of its procedure an activation leaves the declared outputs and nothing else. -/
theorem Runnable.at_end (h : Runnable sym ops contracts) {q frame : Nat}
    (hop : ops[m.top.pc]? = some op) (hkind : op.kind = .procEnd q frame)
    (hm : (before sym ops m.top.pc).Matches id base m.stack m.top.bound) :
    q = id ∧ ∃ p, sym.procs[q]? = some p ∧ m.stack = p.outs.reverse ++ base := by
  obtain ⟨kind, loc⟩ := op
  cases hkind
  refine ⟨?_, ?_⟩
  · obtain ⟨blocks, after, haligned, hnests⟩ := h.accepted.nests h.nested hop
    cases hnests with
    | plain hk => cases hk
    | procEnd hk =>
      obtain ⟨hcurrent, _, _⟩ := haligned.of_body hk
      rw [hm.current] at hcurrent
      exact (Option.some.inj hcurrent).symm
  · have hmove := h.accepted.move hop
    generalize before sym ops (m.top.pc + 1) = next at hmove
    cases hmove with
    | plain hk => cases hk
    | procEnd hc hp hb htypes =>
      refine ⟨_, hp, ?_⟩
      rw [hm.stack, ← htypes, TypeStack.types, List.reverse_reverse]

/-- A run that is in order goes on in order, until the activation that it began with ends. -/
theorem Runnable.step (h : Runnable sym ops contracts) {root : Nat} {below : List Ty}
    (hm : Running sym ops root below m) :
    m.Ends ops root ∨ ∀ taken, ∃ next, m.step sym ops taken = some next ∧
      Running sym ops root below next := by
  obtain ⟨id, base, hstanding, hwaiting⟩ := hm
  cases hstanding with
  | starting hp hop hstack hbound =>
    refine .inr fun taken => ?_
    obtain ⟨hstep, hmatches⟩ := h.step_start hp hop hstack hbound taken
    exact ⟨_, hstep, id, base, .inside hmatches, hwaiting⟩
  | inside hmatches =>
    obtain ⟨op, hop⟩ := h.accepted.exists_op (by rw [hmatches.current]; simp)
    by_cases hcall : ∃ q, op.kind = .call q
    · obtain ⟨q, hkind⟩ := hcall
      refine .inr fun taken => ?_
      obtain ⟨p, start, rest, hp, hstep, hcallee, hbase, hback⟩ :=
        h.step_call hop hkind hmatches taken
      exact ⟨_, hstep, q, rest, hcallee, .caller hp hback hbase hwaiting⟩
    by_cases hend : ∃ q frame, op.kind = .procEnd q frame
    · obtain ⟨q, frame, hkind⟩ := hend
      obtain ⟨rfl, p, hp, hstack⟩ := h.at_end hop hkind hmatches
      -- Without a caller this is the activation that the run began with.
      generalize hcallers : m.callers = callers at hwaiting
      cases hwaiting with
      | root => exact .inl ⟨hcallers, frame, by simp [hop, hkind]⟩
      | @caller id' _ base' _ p' a callers hp' ha hbase hwaiting =>
        refine .inr fun taken => ⟨⟨m.stack, a, callers⟩, ?_, id', base', .inside ?_, hwaiting⟩
        · rw [Machine.step_of hop, hkind]
          simp [Machine.perform, Machine.leave, hcallers]
        · rw [hp] at hp'
          cases hp'
          rwa [hstack]
    · simp only [not_exists] at hcall hend
      refine .inr fun taken => ?_
      obtain ⟨next, hstep, hcallers, hnext⟩ := h.step_inside hop hmatches hcall hend taken
      exact ⟨next, hstep, id, base, .inside hnext, by rwa [hcallers]⟩

/-- Every machine that a run comes to is in order. -/
theorem Runnable.reaches (h : Runnable sym ops contracts) {root : Nat} {below : List Ty}
    {start : Machine} (hstart : Running sym ops root below start)
    (hm : Machine.Reaches sym ops start m) : Running sym ops root below m := by
  induction hm with
  | start => exact hstart
  | step _ hstep ih =>
    rcases h.step ih with hend | hnext
    · rw [hend.step_eq_none] at hstep
      cases hstep
    · obtain ⟨next, hnext, hrunning⟩ := hnext _
      rw [hstep] at hnext
      cases hnext
      exact hrunning

/-- In a run that is in order the operation to come finds its operands above `below`. -/
theorem Runnable.room (h : Runnable sym ops contracts) {root : Nat} {below : List Ty}
    (hm : Running sym ops root below m) :
    ∃ op above, ops[m.top.pc]? = some op ∧ m.stack = above ++ below ∧
      op.kind.operands sym ≤ above.length := by
  obtain ⟨id, base, hstanding, hwaiting⟩ := hm
  obtain ⟨lower, rfl⟩ := hwaiting.suffix
  cases hstanding with
  | @starting p hp hop hstack hbound =>
    obtain ⟨op, hop, hkind⟩ := Option.map_eq_some_iff.mp hop
    exact ⟨op, p.ins.reverse ++ lower, hop, by rw [hstack, List.append_assoc],
      by simp [hkind, OpKind.operands]⟩
  | inside hmatches =>
    obtain ⟨op, hop⟩ := h.accepted.exists_op (by rw [hmatches.current]; simp)
    refine ⟨op, _ ++ lower, hop, by rw [hmatches.stack, List.append_assoc], ?_⟩
    have hle := (h.accepted.move hop).operands_le
    simp only [List.length_append, List.length_map]
    unfold size at hle
    omega

/-- A run that is in order ends with the declared outputs above `below`. -/
theorem Runnable.stack_at_end (h : Runnable sym ops contracts) {root : Nat} {below : List Ty}
    (hm : Running sym ops root below m) (hend : m.Ends ops root) {p : Procedure}
    (hp : sym.procs[root]? = some p) : m.stack = p.outs.reverse ++ below := by
  obtain ⟨id, base, hstanding, hwaiting⟩ := hm
  obtain ⟨hcallers, frame, hop⟩ := hend
  rw [hcallers] at hwaiting
  cases hwaiting
  cases hstanding with
  | starting _ hstart =>
    rw [hop] at hstart
    cases hstart
  | inside hmatches =>
    obtain ⟨op, hop, hkind⟩ := Option.map_eq_some_iff.mp hop
    obtain ⟨_, p', hp', hstack⟩ := h.at_end hop hkind hmatches
    rw [hp] at hp'
    cases hp'
    exact hstack

/-- No run of an accepted program goes wrong. From the start of any procedure, with its inputs on
top of any stack, and whichever way each `if` goes: every operation that the run comes to finds its
operands above that stack, of types that suit it, and its bindings in scope, so that the run goes on
until the procedure ends. There it has left its outputs on top of the same stack. -/
theorem accepted_programs_are_stack_safe (file source : String) (c : Checked)
    (h : Checked.ofSource file source = .ok c) (id : Nat) (p : Procedure)
    (hp : c.program.symbols.procs[id]? = some p) (below : List Ty) :
    ∃ start, Machine.index? c.program.ops [.procBegin id] = some start ∧
      ∀ m, Machine.Reaches c.program.symbols c.program.ops
          ⟨(below ++ p.ins).reverse, ⟨start, []⟩, []⟩ m →
        (∃ op above, c.program.ops[m.top.pc]? = some op ∧ m.stack = above ++ below.reverse ∧
          op.kind.operands c.program.symbols ≤ above.length) ∧
        (m.Ends c.program.ops id ∨
          ∀ taken, ∃ next, m.step c.program.symbols c.program.ops taken = some next) ∧
        (m.Ends c.program.ops id → m.stack = (below ++ p.outs).reverse) := by
  have hrunnable := Checked.runnable_of_source h
  obtain ⟨start, hindex, hstanding⟩ := hrunnable.standing_start hp below.reverse
  refine ⟨start, hindex, fun m hm => ?_⟩
  have hrunning := hrunnable.reaches ⟨id, _, by rwa [List.reverse_append], .root⟩ hm
  refine ⟨hrunnable.room hrunning, (hrunnable.step hrunning).imp_right fun hstep taken => ?_,
    fun hend => ?_⟩
  · obtain ⟨next, hnext, _⟩ := hstep taken
    exact ⟨next, hnext⟩
  · rw [hrunnable.stack_at_end hrunning hend hp, List.reverse_append]

def recursiveText : String :=
  "sum :: int int -> int let n acc : n 0 > if n 1 - acc n + sum else acc end end end " ++
  "abs :: int -> int dup 0 < if 0 swap - end end " ++
  "total :: int -> int abs dup 0 sum + end"

theorem recursive_text_is_stack_safe :
    ∃ c, Checked.ofSource "sums" recursiveText = .ok c ∧
      ∃ start, Machine.index? c.program.ops [.procBegin 2] = some start ∧
        ∀ m, Machine.Reaches c.program.symbols c.program.ops ⟨[.int, .ptr], ⟨start, []⟩, []⟩ m →
          (∃ op above, c.program.ops[m.top.pc]? = some op ∧ m.stack = above ++ [.ptr] ∧
            op.kind.operands c.program.symbols ≤ above.length) ∧
          (m.Ends c.program.ops 2 ∨
            ∀ taken, ∃ next, m.step c.program.symbols c.program.ops taken = some next) ∧
          (m.Ends c.program.ops 2 → m.stack = [.int, .ptr]) := by
  have hok : (Checked.ofSource "sums" recursiveText).toOption.any fun c =>
      (c.program.symbols.procs[2]?).map (fun p => (p.ins, p.outs)) = some ([.int], [.int]) := by
    decide +kernel
  cases h : Checked.ofSource "sums" recursiveText with
  | error f =>
    rw [h] at hok
    cases hok
  | ok c =>
    rw [h] at hok
    obtain ⟨p, hp, htypes⟩ := Option.map_eq_some_iff.mp (of_decide_eq_true hok)
    obtain ⟨hins, houts⟩ := Prod.mk.inj htypes
    have hsafe := accepted_programs_are_stack_safe "sums" recursiveText c h 2 p hp [.ptr]
    rw [hins, houts] at hsafe
    exact ⟨c, rfl, hsafe⟩

end StackEffect
