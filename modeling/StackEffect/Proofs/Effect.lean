import StackEffect.Contract.Check
import StackEffect.Proofs.Except

/-! # The effect of operations on the types of the stack

Apart from those that open and close blocks, an operation takes a fixed number of values and leaves
others in their place. What it leaves depends only on the types of the values it takes and of those
that are bound. Checking such an operation comes to the same: it succeeds exactly when enough values
are there and their types lead to an outcome.
-/

namespace StackEffect

def OpKind.operands (sym : Symbols) : OpKind → Nat
  | intrinsic i => i.signature.ins.length
  | cast _ | storeVar _ _ | member _ _ _ | ifBegin => 1
  | call id => (sym.procs[id]?).elim 0 (·.ins.length)
  | bind count => count
  | _ => 0

/-- Whether an operation neither opens nor closes nor continues a block. -/
def OpKind.isPlain : OpKind → Bool
  | ifBegin | ifElse _ | ifEnd _ | elseEnd _ | bind _ | unbind _ | procBegin _ | procEnd _ _ =>
    false
  | _ => true

/-- A type suits an operand, when `shared` is the type of those that have to agree. -/
def Operand.Admits (shared : Ty) : Operand → Ty → Prop
  | exact wanted, ty => ty = wanted
  | any, _ => True
  | same, ty => ty = shared

instance (shared : Ty) : (operand : Operand) → (ty : Ty) → Decidable (operand.Admits shared ty)
  | .exact wanted, ty => inferInstanceAs (Decidable (ty = wanted))
  | .any, _ => inferInstanceAs (Decidable True)
  | .same, ty => inferInstanceAs (Decidable (ty = shared))

/-- The type of a result, given the types of all operands and the one that some of them share. -/
def Outcome.type? (args : List Ty) (shared : Ty) : Outcome → Option Ty
  | exact ty => some ty
  | same => some shared
  | input i => args[i]?

namespace Signature

/-- The type of the first operand of those that have to agree. -/
def shared? : List (Operand × Ty) → Option Ty
  | [] => none
  | (.same, ty) :: _ => some ty
  | (.exact _, _) :: rest | (.any, _) :: rest => shared? rest

/-- The types that a primitive leaves, bottom first, if its operands suit it. -/
def results? (s : Signature) (args : List Ty) : Option (List Ty) :=
  let shared := (shared? (s.ins.zip args)).getD .any
  if ∀ p ∈ s.ins.zip args, p.1.Admits shared p.2 then some (s.outs.filterMap (·.type? args shared))
  else none

theorem results?_types (s : Signature) (args : List Frame) :
    s.results? (args.map (·.ty)) =
      let shared := (shared? ((s.ins.zip args).map fun p => (p.1, p.2.ty))).getD .any
      if ∀ p ∈ s.ins.zip args, p.1.Admits shared p.2.ty then
        some (s.outs.filterMap (·.type? (args.map (·.ty)) shared))
      else none := by
  have hzip : s.ins.zip (args.map (·.ty)) = (s.ins.zip args).map fun p => (p.1, p.2.ty) :=
    List.zip_map_right
  simp only [results?, hzip, List.forall_mem_map]

end Signature

/-- The types that a plain operation leaves in place of its operands, bottom first. There is no
outcome if the operands are of the wrong types or something that the operation refers to is missing.
-/
def OpKind.outcome? (sym : Symbols) (bound args : List Ty) : OpKind → Option (List Ty)
  | pushInt _ => some [.int]
  | pushBool _ => some [.bool]
  | pushPtr _ | pushMem _ => some [.ptr]
  | pushStr _ => some [.int, .ptr]
  | intrinsic i => i.signature.results? args
  | cast ty => some [ty]
  | call id => (sym.procs[id]?).bind fun p => if args = p.ins then some p.outs else none
  | pushBinding depth => (bound[depth]?).map ([·])
  | loadVar _ ty | varAddr _ ty => some [ty]
  | storeVar ref ty => (sym.var? ref).bind fun _ => if args = [ty] then some [] else none
  | member access name _ =>
    match args with
    | [.struct id] =>
      ((sym.structs[id]?).bind (·.member? name)).map fun found => [access.result found.2.ty]
    | _ => none
  | _ => none

namespace TypeStack

/-- The stack below its `count` top values, once these are popped. -/
def popped (s : TypeStack) (count : Nat) : TypeStack :=
  ⟨s.frames.drop count, s.height - count, min s.low (s.height - count)⟩

/-- The counters of a stack never say that it is lower than it has been. -/
def Settled (s : TypeStack) : Prop :=
  s.low ≤ s.height

variable {s : TypeStack}

theorem pushAll_eq (s : TypeStack) (fs : List Frame) :
    s.pushAll fs = { s with frames := fs.reverse ++ s.frames, height := s.height + fs.length } := by
  induction fs generalizing s with
  | nil => simp [pushAll]
  | cons f fs ih =>
    change (s.push f).pushAll fs = _
    rw [ih]
    simp only [push, List.reverse_cons, List.append_assoc, List.singleton_append, List.length_cons,
      mk.injEq, true_and, and_true]
    omega

theorem types_length (s : TypeStack) : s.types.length = s.frames.length := by
  simp [types]

theorem popped_settled (s : TypeStack) (count : Nat) : (s.popped count).Settled := by
  simp only [Settled, popped]
  omega

theorem popped_zero (hs : s.Settled) : s.popped 0 = s := by
  have hlow : min s.low s.height = s.low := by
    unfold Settled at hs
    omega
  simp [popped, hlow]

theorem popped_popped (s : TypeStack) (m n : Nat) : (s.popped m).popped n = s.popped (m + n) := by
  simp only [popped, List.drop_drop, mk.injEq, true_and]
  omega

theorem pop?_eq (s : TypeStack) : s.pop? = s.frames.head?.map fun f => (f, s.popped 1) := by
  unfold pop?
  split <;> simp_all [popped]

theorem popMany?_eq (hs : s.Settled) (count : Nat) :
    popMany? count s = if count ≤ s.frames.length then
      some ((s.frames.take count).reverse, s.popped count) else none := by
  induction count generalizing s with
  | zero => simp [popMany?, popped_zero hs]
  | succ n ih =>
    rw [popMany?, pop?_eq]
    cases hf : s.frames with
    | nil => simp
    | cons f frames =>
      simp only [List.head?_cons, Option.map_some, ih (s.popped_settled 1), popped_popped]
      have hbelow : (s.popped 1).frames = frames := by simp [popped, hf]
      rw [hbelow, Nat.add_comm 1 n]
      by_cases hn : n ≤ frames.length <;> simp [hn]

end TypeStack

namespace Symbols

variable (sym : Symbols) (what : String) (loc : Location)

/-- Operands that suit a primitive pass its check, which finds the one whose type others share: the
one met before, or else the first still to come. -/
theorem checkOperands_ok (before : Option Frame) (l : List (Operand × Frame)) {shared : Ty}
    (hshared : shared = ((before.map (·.ty)).or
      (Signature.shared? (l.map fun p => (p.1, p.2.ty)))).getD .any)
    (h : ∀ p ∈ l, p.1.Admits shared p.2.ty) :
    ∃ first, sym.checkOperands what loc before l = .ok first ∧
      first.elim .any (·.ty) = shared := by
  induction l generalizing before with
  | nil => cases before <;> simp_all [checkOperands, Signature.shared?]
  | cons p l ih =>
    obtain ⟨operand, f⟩ := p
    obtain ⟨hf, hl⟩ := List.forall_mem_cons.mp h
    cases operand with
    | any => exact ih before hshared hl
    | exact ty =>
      have hty : f.ty = ty := hf
      simpa [checkOperands, expectType, hty] using ih before hshared hl
    | same =>
      have hty : f.ty = shared := hf
      cases before with
      | none => exact ih (some f) (by simpa using hty.symm) hl
      | some first =>
        have hfirst : shared = first.ty := by simpa using hshared
        simpa [checkOperands, hty, hfirst] using ih (some first) (by simpa using hfirst) hl

/-- Operands that do not suit a primitive are a mismatch of types. -/
theorem checkOperands_error (before : Option Frame) (l : List (Operand × Frame)) {shared : Ty}
    (hshared : shared = ((before.map (·.ty)).or
      (Signature.shared? (l.map fun p => (p.1, p.2.ty)))).getD .any)
    (h : ¬ ∀ p ∈ l, p.1.Admits shared p.2.ty) :
    ∃ f, sym.checkOperands what loc before l = .error f ∧ f.cause.kind = .typeMismatch := by
  induction l generalizing before with
  | nil => simp at h
  | cons p l ih =>
    obtain ⟨operand, f⟩ := p
    rw [List.forall_mem_cons] at h
    cases operand with
    | any => exact ih before hshared fun hl => h ⟨trivial, hl⟩
    | exact ty =>
      by_cases hty : f.ty = ty
      · simpa [checkOperands, expectType, hty] using
          ih before hshared fun hl => h ⟨hty, hl⟩
      · simp [checkOperands, expectType, hty, Cause.kind]
    | same =>
      cases before with
      | none =>
        have hty : shared = f.ty := by simpa [Signature.shared?] using hshared
        exact ih (some f) (by simpa using hty) fun hl => h ⟨hty.symm, hl⟩
      | some first =>
        have hfirst : shared = first.ty := by simpa using hshared
        by_cases hty : first.ty = f.ty
        · simpa [checkOperands, hty] using ih (some first) (by simpa using hfirst) fun hl =>
            h ⟨(hfirst.trans hty).symm, hl⟩
        · simp [checkOperands, hty, Cause.kind]

/-- The arguments of a call pass when their types are the wanted ones, and else are a mismatch. -/
theorem checkArguments_spec (p : Procedure) (wanted : List Ty) (args rest : List Frame)
    (hlen : args.length = wanted.length) :
    (args.map (·.ty) = wanted → sym.checkArguments p loc wanted (args ++ rest) = .ok ()) ∧
    (args.map (·.ty) ≠ wanted → ∃ f, sym.checkArguments p loc wanted (args ++ rest) = .error f ∧
      f.cause.kind = .typeMismatch) := by
  induction wanted generalizing args with
  | nil =>
    obtain rfl : args = [] := by simpa using hlen
    simp [checkArguments]
  | cons want wanted ih =>
    obtain ⟨f, args, rfl⟩ := List.exists_cons_of_length_eq_add_one hlen
    have hargs := ih args (by simpa using hlen)
    by_cases hty : f.ty = want
    · simpa [checkArguments, hty] using hargs
    · simp [checkArguments, hty, Cause.kind]

end Symbols

theorem Outcome.frame?_type (args : List Frame) (shared : Option Frame) (loc : Location)
    (o : Outcome) : (o.frame? args shared loc).map (·.ty) =
      o.type? (args.map (·.ty)) (shared.elim .any (·.ty)) := by
  cases o <;> simp [frame?, type?]

/-- All that an operation refers to is there: the procedure it calls, the variable it stores to, the
binding it pushes, the struct whose member it accesses. -/
def OpKind.Grounded (sym : Symbols) (bound args : List Ty) : OpKind → Prop
  | call id => id < sym.procs.length
  | storeVar ref _ => (sym.var? ref).isSome
  | pushBinding depth => depth < bound.length
  | member _ _ _ => ∀ id, args = [.struct id] → id < sym.structs.length
  | _ => True

namespace CheckState

variable {sym : Symbols} {st : CheckState} {kind : OpKind} {index : Nat} {loc : Location}
  {args rest : List Frame}

/-- The state after some values have been popped and others pushed, the first of them first. -/
def replace (st : CheckState) (count : Nat) (results : List Frame) : CheckState :=
  { st with stack := (st.stack.popped count).pushAll results }

def bound (st : CheckState) : List Ty :=
  st.bindings.map (·.ty)

theorem push_eq (hs : st.stack.Settled) (types : List Ty) (loc : Location) :
    st.push types loc = st.replace 0 (types.map (⟨·, loc⟩)) := by
  rw [replace, TypeStack.popped_zero hs, push]

theorem pop_ok (hs : st.stack.Settled) (hf : st.stack.frames = args.reverse ++ rest)
    (what : String) : st.pop args.length what loc =
      .ok (args, { st with stack := st.stack.popped args.length }) := by
  have htake : st.stack.frames.take args.length = args.reverse := by
    rw [hf, List.take_left' args.length_reverse]
  have hlen : args.length ≤ st.stack.frames.length := by simp [hf]
  simp [pop, TypeStack.popMany?_eq hs, htake, hlen]

theorem pop_short (hs : st.stack.Settled) {count : Nat} (h : st.stack.frames.length < count)
    (what : String) : st.pop count what loc =
      .error ((Cause.tooFewValues what count st.stack.frames.length).fault loc) := by
  simp [pop, TypeStack.popMany?_eq hs, Nat.not_le.mpr h]

theorem popOne_ok {f : Frame} (hf : st.stack.frames = f :: rest) (what : String) :
    st.popOne what loc = .ok (f, { st with stack := st.stack.popped 1 }) := by
  simp [popOne, TypeStack.pop?_eq, hf]

theorem popOne_short (h : st.stack.frames.length < 1) (what : String) :
    st.popOne what loc = .error ((Cause.tooFewValues what 1 0).fault loc) := by
  have hf : st.stack.frames = [] := by simpa using h
  simp [popOne, TypeStack.pop?_eq, hf]

variable (sym loc) in
theorem intrinsic_ok (hs : st.stack.Settled) (hf : st.stack.frames = args.reverse ++ rest)
    {i : Intrinsic} (hlen : args.length = i.signature.ins.length) {types : List Ty}
    (h : i.signature.results? (args.map (·.ty)) = some types) :
    ∃ res : List Frame, res.map (·.ty) = types ∧
      st.intrinsic sym i loc = .ok (st.replace args.length res) := by
  simp only [Signature.results?_types] at h
  split at h
  · rename_i hadmits
    cases h
    obtain ⟨first, hfirst, hshared⟩ := sym.checkOperands_ok s!"`{i.name}`" loc none
      (i.signature.ins.zip args) rfl hadmits
    refine ⟨i.signature.outs.filterMap (·.frame? args first loc), ?_, ?_⟩
    · rw [List.map_filterMap]
      simp only [Outcome.frame?_type, hshared]
      rfl
    · simp only [intrinsic, ← hlen, pop_ok hs hf, ok_bind, hfirst]
      rfl
  · cases h

variable (sym loc) in
theorem intrinsic_mismatch (hs : st.stack.Settled) (hf : st.stack.frames = args.reverse ++ rest)
    {i : Intrinsic} (hlen : args.length = i.signature.ins.length)
    (h : i.signature.results? (args.map (·.ty)) = none) :
    ∃ f, st.intrinsic sym i loc = .error f ∧ f.cause.kind = .typeMismatch := by
  simp only [Signature.results?_types] at h
  split at h
  · cases h
  · rename_i hadmits
    obtain ⟨f, hfault, hkind⟩ := sym.checkOperands_error s!"`{i.name}`" loc none
      (i.signature.ins.zip args) rfl hadmits
    refine ⟨f, ?_, hkind⟩
    simp only [intrinsic, ← hlen, pop_ok hs hf, ok_bind, hfault, error_bind]

theorem call_ok (hs : st.stack.Settled) (hf : st.stack.frames = args.reverse ++ rest)
    {id : Nat} {p : Procedure} (hp : sym.procs[id]? = some p) (hargs : args.map (·.ty) = p.ins) :
    st.call sym id loc = .ok (st.replace args.length (p.outs.map (⟨·, loc⟩))) := by
  have hlen : args.length = p.ins.length := by simp [← hargs]
  have hcheck := (sym.checkArguments_spec loc p p.ins.reverse args.reverse rest
    (by simp [hlen])).1 (by rw [List.map_reverse, hargs])
  have henough : ¬ st.stack.frames.length < p.ins.length := by simp [hf, hlen]
  simp only [call, Symbols.procAt, hp, ok_bind, henough, if_false]
  rw [hf, hcheck, ← hlen, pop_ok hs hf]
  rfl

variable (loc) in
theorem call_mismatch (hf : st.stack.frames = args.reverse ++ rest) {id : Nat} {p : Procedure}
    (hp : sym.procs[id]? = some p) (hlen : args.length = p.ins.length)
    (hargs : args.map (·.ty) ≠ p.ins) :
    ∃ f, st.call sym id loc = .error f ∧ f.cause.kind = .typeMismatch := by
  obtain ⟨f, hcheck, hkind⟩ := (sym.checkArguments_spec loc p p.ins.reverse args.reverse rest
    (by simp [hlen])).2
    (by rw [List.map_reverse]; exact fun h => hargs (List.reverse_inj.mp h))
  have henough : ¬ st.stack.frames.length < p.ins.length := by simp [hf, hlen]
  refine ⟨f, ?_, hkind⟩
  simp only [call, Symbols.procAt, hp, ok_bind, henough, if_false]
  rw [hf, hcheck, error_bind]

/-- A plain operation that pushes values whatever is on the stack. -/
theorem push_spec (hs : st.stack.Settled) (hlen : args.length = 0) {types pushed : List Ty}
    (h : some pushed = some types) :
    ∃ res : List Frame, res.map (·.ty) = types ∧
      (.ok (st.push pushed loc) : Except Fault CheckState) = .ok (st.replace args.length res) := by
  obtain rfl := Option.some.inj h
  exact ⟨pushed.map (⟨·, loc⟩), by simp [Function.comp_def], by rw [push_eq hs, hlen]⟩

section Plain

variable (index loc)

/-- A plain operation whose operands lead to an outcome succeeds and leaves values of these types.
-/
theorem effect_ok (hk : kind.isPlain) (hs : st.stack.Settled)
    (hf : st.stack.frames = args.reverse ++ rest) (hlen : args.length = kind.operands sym)
    {types : List Ty} (h : kind.outcome? sym st.bound (args.map (·.ty)) = some types) :
    ∃ res : List Frame, res.map (·.ty) = types ∧
      st.effect sym index kind loc = .ok (st.replace args.length res) := by
  cases kind with
  | pushInt | pushBool | pushPtr | pushStr | pushMem | loadVar | varAddr =>
    exact push_spec hs hlen h
  | intrinsic i => exact intrinsic_ok sym loc hs hf hlen h
  | cast ty =>
    cases h
    obtain ⟨f, rfl⟩ := List.length_eq_one_iff.mp hlen
    refine ⟨[⟨ty, loc⟩], rfl, ?_⟩
    simp only [effect, cast, popOne_ok hf, ok_bind]
    rfl
  | call id =>
    simp only [OpKind.outcome?, Option.bind_eq_some_iff] at h
    obtain ⟨p, hp, h⟩ := h
    split at h
    · rename_i hargs
      cases h
      exact ⟨p.outs.map (⟨·, loc⟩), by simp [Function.comp_def], call_ok hs hf hp hargs⟩
    · cases h
  | pushBinding depth =>
    simp only [OpKind.outcome?, bound, List.getElem?_map, Option.map_map,
      Option.map_eq_some_iff] at h
    obtain ⟨f, hb, rfl⟩ := h
    refine ⟨[⟨f.ty, loc⟩], rfl, ?_⟩
    simp only [effect, pushBinding, hb, push_eq hs, hlen]
    rfl
  | storeVar ref ty =>
    simp only [OpKind.outcome?, Option.bind_eq_some_iff] at h
    obtain ⟨v, hv, h⟩ := h
    split at h
    · rename_i hargs
      cases h
      obtain ⟨f, rfl⟩ := List.length_eq_one_iff.mp hlen
      have hty : f.ty = ty := by simpa using hargs
      refine ⟨[], rfl, ?_⟩
      simp only [effect, storeVar, hv, popOne_ok hf, ok_bind, Symbols.expectType, hty, if_true]
      rfl
    · cases h
  | member access name offset =>
    obtain ⟨f, rfl⟩ := List.length_eq_one_iff.mp hlen
    cases hty : f.ty with
    | struct id =>
      simp only [OpKind.outcome?, List.map_cons, List.map_nil, hty, Option.map_eq_some_iff,
        Option.bind_eq_some_iff] at h
      obtain ⟨found, ⟨d, hd, hm⟩, rfl⟩ := h
      refine ⟨[⟨access.result found.2.ty, loc⟩], rfl, ?_⟩
      simp only [effect, member, popOne_ok hf, ok_bind, hty, hd, hm]
      rfl
    | int | bool | ptr | any => simp [OpKind.outcome?, hty] at h
  | ifBegin | ifElse | ifEnd | elseEnd | bind | unbind | procBegin | procEnd => cases hk

/-- A plain operation whose operands lead to no outcome is rejected, because of their types unless
something it refers to is missing. -/
theorem effect_mismatch (hk : kind.isPlain) (hs : st.stack.Settled)
    (hf : st.stack.frames = args.reverse ++ rest) (hlen : args.length = kind.operands sym)
    (h : kind.outcome? sym st.bound (args.map (·.ty)) = none) :
    ∃ f, st.effect sym index kind loc = .error f ∧
      (kind.Grounded sym st.bound (args.map (·.ty)) →
        f.cause.kind = .typeMismatch ∨ f.cause.kind = .unknownMember) := by
  cases kind with
  | pushInt | pushBool | pushPtr | pushStr | pushMem | loadVar | varAddr | cast => cases h
  | intrinsic i =>
    obtain ⟨f, hfault, hkind⟩ := intrinsic_mismatch sym loc hs hf hlen h
    exact ⟨f, hfault, fun _ => .inl hkind⟩
  | call id =>
    cases hp : sym.procs[id]? with
    | none =>
      refine ⟨_, by simp only [effect, call, Symbols.procAt, hp, error_bind]; rfl, fun hg => ?_⟩
      exact absurd hg (Nat.not_lt.mpr (List.getElem?_eq_none_iff.mp hp))
    | some p =>
      have hargs : args.map (·.ty) ≠ p.ins := by simpa [OpKind.outcome?, hp] using h
      have hlen' : args.length = p.ins.length := by simpa [OpKind.operands, hp] using hlen
      obtain ⟨f, hfault, hkind⟩ := call_mismatch loc hf hp hlen' hargs
      exact ⟨f, hfault, fun _ => .inl hkind⟩
  | pushBinding depth =>
    have hb : st.bindings[depth]? = none := by simpa [OpKind.outcome?, bound] using h
    refine ⟨_, by simp only [effect, pushBinding, hb]; rfl, fun hg => ?_⟩
    have hlt : depth < st.bindings.length := by simpa [OpKind.Grounded, bound] using hg
    exact absurd hlt (Nat.not_lt.mpr (List.getElem?_eq_none_iff.mp hb))
  | storeVar ref ty =>
    cases hv : sym.var? ref with
    | none =>
      refine ⟨_, by simp only [effect, storeVar, hv]; rfl, fun hg => ?_⟩
      simp [OpKind.Grounded, hv] at hg
    | some v =>
      obtain ⟨f, rfl⟩ := List.length_eq_one_iff.mp hlen
      have hty : f.ty ≠ ty := by simpa [OpKind.outcome?, hv] using h
      refine ⟨_, by
        simp only [effect, storeVar, hv, popOne_ok hf, ok_bind, Symbols.expectType, hty, if_false,
          error_bind]
        rfl, fun _ => .inl rfl⟩
  | member access name offset =>
    obtain ⟨f, rfl⟩ := List.length_eq_one_iff.mp hlen
    cases hty : f.ty with
    | struct id =>
      cases hd : sym.structs[id]? with
      | none =>
        refine ⟨_, by simp only [effect, member, popOne_ok hf, ok_bind, hty, hd]; rfl, fun hg => ?_⟩
        exact absurd (hg id (by simp [hty])) (Nat.not_lt.mpr (List.getElem?_eq_none_iff.mp hd))
      | some d =>
        have hm : d.member? name = none := by simpa [OpKind.outcome?, hty, hd] using h
        exact ⟨_, by simp only [effect, member, popOne_ok hf, ok_bind, hty, hd, hm]; rfl,
          fun _ => .inr rfl⟩
    | int | bool | ptr | any =>
      exact ⟨_, by simp only [effect, member, popOne_ok hf, ok_bind, hty]; rfl, fun _ => .inl rfl⟩
  | ifBegin | ifElse | ifEnd | elseEnd | bind | unbind | procBegin | procEnd => cases hk

/-- A plain operation that finds too few values is rejected for that reason, unless something it
refers to is missing. -/
theorem effect_short (hk : kind.isPlain) (hs : st.stack.Settled)
    (h : st.stack.frames.length < kind.operands sym) :
    ∃ f, st.effect sym index kind loc = .error f ∧
      ((∀ ref ty, kind = .storeVar ref ty → (sym.var? ref).isSome) → f.cause.kind = .arity) := by
  cases kind with
  | pushInt | pushBool | pushPtr | pushStr | pushMem | loadVar | varAddr | pushBinding =>
    exact absurd h (Nat.not_lt_zero _)
  | intrinsic i =>
    have hlt : st.stack.frames.length < i.signature.ins.length := h
    exact ⟨_, by simp only [effect, intrinsic, pop_short hs hlt, error_bind]; rfl, fun _ => rfl⟩
  | cast ty =>
    exact ⟨_, by simp only [effect, cast, popOne_short h, error_bind]; rfl, fun _ => rfl⟩
  | call id =>
    cases hp : sym.procs[id]? with
    | none => simp [OpKind.operands, hp] at h
    | some p =>
      have hlt : st.stack.frames.length < p.ins.length := by simpa [OpKind.operands, hp] using h
      exact ⟨_, by simp only [effect, call, Symbols.procAt, hp, ok_bind, hlt, if_true]; rfl,
        fun _ => rfl⟩
  | storeVar ref ty =>
    cases hv : sym.var? ref with
    | none =>
      refine ⟨_, by simp only [effect, storeVar, hv]; rfl, fun hg => ?_⟩
      simpa [hv] using hg ref ty rfl
    | some v =>
      exact ⟨_, by simp only [effect, storeVar, hv, popOne_short h, error_bind]; rfl, fun _ => rfl⟩
  | member access name offset =>
    exact ⟨_, by simp only [effect, member, popOne_short h, error_bind]; rfl, fun _ => rfl⟩
  | ifBegin | ifElse | ifEnd | elseEnd | bind | unbind | procBegin | procEnd => cases hk

/-- A plain operation finds too few values, or values that lead to no outcome, or it succeeds. -/
theorem effect_cases (hk : kind.isPlain) (hs : st.stack.Settled) :
    (∃ f, st.effect sym index kind loc = .error f ∧
      ((∀ ref ty, kind = .storeVar ref ty → (sym.var? ref).isSome) → f.cause.kind = .arity)) ∨
    ∃ args rest : List Frame, st.stack.frames = args.reverse ++ rest ∧
      args.length = kind.operands sym ∧
      ((∃ f, st.effect sym index kind loc = .error f ∧
        (kind.Grounded sym st.bound (args.map (·.ty)) →
          f.cause.kind = .typeMismatch ∨ f.cause.kind = .unknownMember)) ∨
      ∃ res : List Frame, kind.outcome? sym st.bound (args.map (·.ty)) = some (res.map (·.ty)) ∧
        st.effect sym index kind loc = .ok (st.replace args.length res)) := by
  rcases Nat.lt_or_ge st.stack.frames.length (kind.operands sym) with hshort | henough
  · exact .inl (effect_short index loc hk hs hshort)
  let args := (st.stack.frames.take (kind.operands sym)).reverse
  have hf : st.stack.frames = args.reverse ++ st.stack.frames.drop (kind.operands sym) := by
    rw [List.reverse_reverse, List.take_append_drop]
  have hlen : args.length = kind.operands sym := by simp [args, henough]
  refine .inr ⟨args, _, hf, hlen, ?_⟩
  cases hout : kind.outcome? sym st.bound (args.map (·.ty)) with
  | none => exact .inl (effect_mismatch index loc hk hs hf hlen hout)
  | some types =>
    obtain ⟨res, hres, hok⟩ := effect_ok index loc hk hs hf hlen hout
    exact .inr ⟨res, by rw [hres], hok⟩

end Plain

end CheckState

end StackEffect
