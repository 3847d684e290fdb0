import Mathlib.Data.List.Basic
import StackEffect.Proofs.Growth
import StackEffect.Proofs.Nesting
import StackEffect.Proofs.Pass

/-! # Constant expressions and bodies

The same tokens can stand in an initializer, where they are folded, and in the body of a procedure,
where they are resolved and checked. Here the two readings agree on every expression made of
literals, constants, casts and the primitives that can be folded: one is accepted exactly when the
other is, and the types that a check leaves on the stack are those of the folded values.
-/

namespace StackEffect

namespace Intrinsic

def shuffles : List Intrinsic :=
  [dup, drop, swap, dupUnder, rot]

def foldable : List Intrinsic :=
  shuffles ++ [add, sub, mul, eq, ne]

theorem ofName?_name (i : Intrinsic) : ofName? i.name = some i := by
  cases i <;> rfl

theorem name_of_ofName? {text : String} {i : Intrinsic} (h : ofName? text = some i) :
    i.name = text := by
  simpa using List.find?_some h

theorem memberWord?_name (i : Intrinsic) : memberWord? i.name = none := by
  cases i <;> rfl

theorem stripSigil?_name (i : Intrinsic) : stripSigil? '#' i.name = none := by
  cases i <;> rfl

end Intrinsic

/-- The operand that a primitive leaves at some place. -/
def Outcome.pick? (args : List Value) : Outcome → Option Value
  | input i => args[i]?
  | exact _ | same => none

/-- Values on the stack of a constant expression have the types that a check has on its stack. -/
structure Follows (values : List Value) (st : CheckState) : Prop where
  types : st.stack.frames.map (·.ty) = values.map (·.ty)
  settled : st.stack.Settled
  inside : st.current ≠ none

/-- An evaluation and a check both fail, or both succeed with the same types. -/
inductive Agree : Except Fault (List Value) → Except Fault CheckState → Prop
  | ok {values : List Value} {st : CheckState} (h : Follows values st) : Agree (.ok values) (.ok st)
  | error {f g : Fault} : Agree (.error f) (.error g)

namespace Follows

variable (sym : Symbols) {st : CheckState} (index : Nat) (kind : OpKind) (loc : Location)
  {args below values : List Value}

theorem exists_frames (h : Follows (args.reverse ++ below) st) :
    ∃ frames rest : List Frame, st.stack.frames = frames.reverse ++ rest ∧
      frames.map (·.ty) = args.map (·.ty) ∧ rest.map (·.ty) = below.map (·.ty) := by
  have htypes := h.types
  rw [List.map_append, List.map_eq_append_iff] at htypes
  obtain ⟨top, rest, hframes, htop, hrest⟩ := htypes
  refine ⟨top.reverse, rest, by rw [List.reverse_reverse, hframes], ?_, hrest⟩
  rw [List.map_reverse, htop, List.map_reverse, List.reverse_reverse]

/-- An operation whose operands lead to an outcome leaves values of these types. -/
theorem step (values : List Value) (h : Follows (args.reverse ++ below) st) (hk : kind.isPlain)
    (hlen : args.length = kind.operands sym)
    (hout : kind.outcome? sym st.bound (args.map (·.ty)) = some (values.map (·.ty))) :
    ∃ next, st.step sym index ⟨kind, loc⟩ = .ok next ∧ Follows (values.reverse ++ below) next := by
  obtain ⟨frames, rest, hframes, hargs, hrest⟩ := h.exists_frames
  have hcount : frames.length = args.length := by simpa using congrArg List.length hargs
  rw [← hargs] at hout
  obtain ⟨res, hres, heffect⟩ := CheckState.effect_ok index loc hk h.settled hframes
    (hcount.trans hlen) hout
  have hstep : st.step sym index ⟨kind, loc⟩ = .ok (st.replace frames.length res) := by
    rw [CheckState.step_inside sym index _ h.inside, heffect]
  have hmove := CheckState.step_move h.settled hstep
  refine ⟨_, hstep, ?_, hmove.settled h.settled, h.inside⟩
  have hdrop : (frames.reverse ++ rest).drop frames.length = rest :=
    List.drop_left' frames.length_reverse
  simp [CheckState.replace, TypeStack.pushAll_eq, TypeStack.popped, hframes, hdrop, hres, hrest]

theorem step_mismatch (h : Follows (args.reverse ++ below) st) (hk : kind.isPlain)
    (hlen : args.length = kind.operands sym)
    (hout : kind.outcome? sym st.bound (args.map (·.ty)) = none) :
    ∃ f, st.step sym index ⟨kind, loc⟩ = .error f := by
  obtain ⟨frames, rest, hframes, hargs, _⟩ := h.exists_frames
  have hcount : frames.length = args.length := by simpa using congrArg List.length hargs
  rw [← hargs] at hout
  obtain ⟨f, hf, _⟩ := CheckState.effect_mismatch index loc hk h.settled hframes
    (hcount.trans hlen) hout
  exact ⟨f, by rw [CheckState.step_inside sym index _ h.inside, hf]⟩

theorem step_short (h : Follows values st) (hk : kind.isPlain)
    (hlen : values.length < kind.operands sym) : ∃ f, st.step sym index ⟨kind, loc⟩ = .error f := by
  have hcount : st.stack.frames.length = values.length := by
    simpa using congrArg List.length h.types
  obtain ⟨f, hf, _⟩ := CheckState.effect_short index loc hk h.settled (hcount ▸ hlen)
  exact ⟨f, by rw [CheckState.step_inside sym index _ h.inside, hf]⟩

end Follows

theorem CheckState.run_append_error {sym : Symbols} {st : CheckState} {index : Nat}
    {as bs : List Op} {f : Fault} (h : (run sym st index as).2 = .error f) :
    (run sym st index (as ++ bs)).2 = .error f := by
  induction as generalizing st index with
  | nil => cases h
  | cons a as ih =>
    cases hstep : st.step sym index a with
    | error g => simpa [run_cons_error hstep] using h
    | ok mid =>
      rw [run_cons_ok hstep] at h
      rw [List.cons_append, run_cons_ok hstep]
      exact ih h

theorem CheckState.run_singleton (sym : Symbols) (st : CheckState) (index : Nat) (op : Op) :
    (run sym st index [op]).2 = st.step sym index op := by
  cases hstep : st.step sym index op with
  | error f => rw [run_cons_error hstep]
  | ok next => rw [run_cons_ok hstep, run]

namespace Follows

variable (sym : Symbols) {st : CheckState} {values : List Value} (index : Nat) (loc : Location)

/-- The operations of a constant push values of its types. -/
theorem pushes (h : Follows values st) {v : Value} (hv : v.ty ≠ .any) :
    ∃ next, (CheckState.run sym st index (v.pushes.map (⟨·, loc⟩))).2 = .ok next ∧
      Follows (v :: values) next := by
  have hpush (kind : OpKind) (ty : Ty) (hk : kind.isPlain) (hlen : kind.operands sym = 0)
      (hout : kind.outcome? sym st.bound [] = some [ty]) :
      ∃ next, st.step sym index ⟨kind, loc⟩ = .ok next ∧ Follows (⟨v.bits, ty⟩ :: values) next := by
    have hbelow : Follows (([] : List Value).reverse ++ values) st := h
    exact hbelow.step sym index kind loc [⟨v.bits, ty⟩] hk hlen.symm hout
  obtain ⟨bits, ty⟩ := v
  cases ty with
  | any => exact absurd rfl hv
  | int | bool | ptr =>
    rw [Value.pushes, List.map_singleton, CheckState.run_singleton]
    exact hpush _ _ rfl rfl rfl
  | struct id =>
    obtain ⟨mid, hmid, hfollows⟩ := hpush (.pushPtr bits) .ptr rfl rfl rfl
    have hptr : Follows ([(⟨bits, .ptr⟩ : Value)].reverse ++ values) mid := hfollows
    obtain ⟨next, hnext, hdone⟩ := hptr.step sym (index + 1) (.cast (.struct id)) loc
      [⟨bits, .struct id⟩] rfl rfl rfl
    refine ⟨next, ?_, hdone⟩
    rw [Value.pushes, List.map_cons, CheckState.run_cons_ok hmid, List.map_singleton,
      CheckState.run_singleton, hnext]

/-- The operations of a struct constant push values of all its types. -/
theorem pushAll (h : Follows values st) {vs : List Value} (hvs : ∀ v ∈ vs, v.ty ≠ .any) :
    ∃ next, (CheckState.run sym st index ((vs.flatMap Value.pushes).map (⟨·, loc⟩))).2 = .ok next ∧
      Follows (vs.reverse ++ values) next := by
  induction vs generalizing st values index with
  | nil => exact ⟨st, rfl, h⟩
  | cons v vs ih =>
    obtain ⟨hv, hvs⟩ := List.forall_mem_cons.mp hvs
    obtain ⟨mid, hmid, hfollows⟩ := h.pushes sym index loc hv
    obtain ⟨next, hnext, hdone⟩ := ih _ hfollows hvs
    refine ⟨next, ?_, by simpa using hdone⟩
    rw [List.flatMap_cons, List.map_append, CheckState.run_append_ok hmid]
    exact hnext

end Follows

namespace Fold

variable {sym : Symbols} {loc : Location} {i : Intrinsic}
  {effect : List Value → Except Fault (List Value)}

theorem length_of_binary {word : String} {f : Value → Value → Except Fault Value}
    {st st' : List Value} (h : binary sym word loc f st = .ok st') : 2 ≤ st.length := by
  unfold binary at h
  split at h
  · simp
  · cases h

/-- A primitive in a constant expression needs as many values as its signature says. -/
theorem length_of_intrinsic? (hi : intrinsic? sym loc i = some effect) {st st' : List Value}
    (h : effect st = .ok st') : i.signature.ins.length ≤ st.length := by
  cases i with
  | dup | drop | swap | dupUnder | rot =>
    cases hi
    simp only at h
    split at h
    · simp [Intrinsic.signature]
    · cases h
  | add | sub | mul | eq | ne =>
    cases hi
    exact length_of_binary h
  | _ => cases hi

/-- A primitive that rearranges the stack does with values, and with their types, what its signature
says. -/
theorem intrinsic?_shuffle (sym : Symbols) (loc : Location) (hi : i ∈ Intrinsic.shuffles)
    {args : List Value} (hlen : args.length = i.signature.ins.length) (below : List Value) :
    ∃ effect picked, intrinsic? sym loc i = some effect ∧
      i.signature.outs.mapM (Outcome.pick? args) = some picked ∧
      effect (args.reverse ++ below) = .ok (picked.reverse ++ below) ∧
      i.signature.results? (args.map (·.ty)) = some (picked.map (·.ty)) := by
  simp only [Intrinsic.shuffles, List.mem_cons, List.not_mem_nil, or_false] at hi
  rcases hi with rfl | rfl | rfl | rfl | rfl
  · obtain ⟨a, rfl⟩ := List.length_eq_one_iff.mp hlen
    exact ⟨_, [a, a], rfl, rfl, rfl, rfl⟩
  · obtain ⟨a, rfl⟩ := List.length_eq_one_iff.mp hlen
    exact ⟨_, [], rfl, rfl, rfl, rfl⟩
  · obtain ⟨a, b, rfl⟩ := List.length_eq_two.mp hlen
    exact ⟨_, [b, a], rfl, rfl, rfl, rfl⟩
  · obtain ⟨a, b, rfl⟩ := List.length_eq_two.mp hlen
    exact ⟨_, [a, b, a], rfl, rfl, rfl, rfl⟩
  · obtain ⟨a, b, c, rfl⟩ := List.length_eq_three.mp hlen
    exact ⟨_, [b, c, a], rfl, rfl, rfl, rfl⟩

theorem results?_same (a b : Ty) (out : Outcome) :
    Signature.results? ⟨[.same, .same], [out]⟩ [a, b] =
      if a = b then some (out.type? [a, b] a).toList else none := by
  by_cases hab : a = b
  · subst hab
    cases hout : out.type? [a, a] a <;>
      simp [Signature.results?, Signature.shared?, Operand.Admits, hout]
  · simp [Signature.results?, Signature.shared?, Operand.Admits, hab, Ne.symm hab]

theorem results?_mul (a b : Ty) :
    Intrinsic.mul.signature.results? [a, b] =
      if a = .int ∧ b = .int then some [.int] else none := by
  simp [Intrinsic.signature, Signature.results?, Operand.Admits, Outcome.type?]

/-- An operator in a constant expression asks for operands of the same types as in a body, and
leaves a value of the same type. -/
theorem intrinsic?_operator (sym : Symbols) (loc : Location)
    (hi : i ∈ [Intrinsic.add, .sub, .mul, .eq, .ne]) (a b : Value) (below : List Value) :
    ∃ effect, intrinsic? sym loc i = some effect ∧
      ((∃ v : Value, effect (b :: a :: below) = .ok (v :: below) ∧
        i.signature.results? [a.ty, b.ty] = some [v.ty]) ∨
      (∃ f, effect (b :: a :: below) = .error f) ∧
        i.signature.results? [a.ty, b.ty] = none) := by
  have hbinary (word : String) (f : Value → Value → Except Fault Value) :
      binary sym word loc f (b :: a :: below) = if a.ty = b.ty then (f a b).map (· :: below)
        else .error ((Cause.foldOperands word (sym.typeName a.ty) (sym.typeName b.ty)).fault loc) :=
    rfl
  simp only [List.mem_cons, List.not_mem_nil, or_false] at hi
  by_cases hty : a.ty = b.ty
  · rcases hi with rfl | rfl | rfl | rfl | rfl
    · exact ⟨_, rfl, .inl ⟨⟨a.bits + b.bits, a.ty⟩, by rw [hbinary, if_pos hty]; rfl, by
        rw [Intrinsic.signature, results?_same, if_pos hty]; rfl⟩⟩
    · exact ⟨_, rfl, .inl ⟨⟨a.bits - b.bits, a.ty⟩, by rw [hbinary, if_pos hty]; rfl, by
        rw [Intrinsic.signature, results?_same, if_pos hty]; rfl⟩⟩
    · by_cases hint : a.ty = .int
      · refine ⟨_, rfl, .inl ⟨.int (a.bits * b.bits), ?_, ?_⟩⟩
        · rw [hbinary, if_pos hty, product, if_pos hint]
          rfl
        · rw [results?_mul, if_pos ⟨hint, hty ▸ hint⟩]
          rfl
      · refine ⟨_, rfl, .inr ⟨⟨(Cause.foldProduct (sym.typeName a.ty)).fault loc, ?_⟩, ?_⟩⟩
        · rw [hbinary, if_pos hty, product, if_neg hint]
          rfl
        · rw [results?_mul, if_neg fun h => hint h.1]
    · exact ⟨_, rfl, .inl ⟨.bool (a.bits == b.bits), by rw [hbinary, if_pos hty]; rfl, by
        rw [Intrinsic.signature, results?_same, if_pos hty]; rfl⟩⟩
    · exact ⟨_, rfl, .inl ⟨.bool (a.bits != b.bits), by rw [hbinary, if_pos hty]; rfl, by
        rw [Intrinsic.signature, results?_same, if_pos hty]; rfl⟩⟩
  · have hnone : i.signature.results? [a.ty, b.ty] = none := by
      rcases hi with rfl | rfl | rfl | rfl | rfl
      case inr.inr.inl => rw [results?_mul, if_neg fun h => hty (h.1.trans h.2.symm)]
      all_goals rw [Intrinsic.signature, results?_same, if_neg hty]
    rcases hi with rfl | rfl | rfl | rfl | rfl
    all_goals exact ⟨_, rfl, .inr ⟨⟨_, by rw [hbinary, if_neg hty]⟩, hnone⟩⟩

/-- A primitive in a constant expression asks for operands of the same types as in a body, and
leaves values of the same types. -/
theorem intrinsic?_types (sym : Symbols) (loc : Location) (hi : i ∈ Intrinsic.foldable)
    {args : List Value} (hlen : args.length = i.signature.ins.length) (below : List Value) :
    ∃ effect, intrinsic? sym loc i = some effect ∧
      ((∃ values : List Value, effect (args.reverse ++ below) = .ok (values.reverse ++ below) ∧
        i.signature.results? (args.map (·.ty)) = some (values.map (·.ty))) ∨
      (∃ f, effect (args.reverse ++ below) = .error f) ∧
        i.signature.results? (args.map (·.ty)) = none) := by
  rcases List.mem_append.mp hi with hi | hi
  · obtain ⟨effect, picked, heffect, _, hok, hresults⟩ := intrinsic?_shuffle sym loc hi hlen below
    exact ⟨effect, heffect, .inl ⟨picked, hok, hresults⟩⟩
  · obtain ⟨a, b, rfl⟩ : ∃ a b, args = [a, b] := by
      refine List.length_eq_two.mp (hlen.trans ?_)
      simp only [List.mem_cons, List.not_mem_nil, or_false] at hi
      rcases hi with rfl | rfl | rfl | rfl | rfl <;> rfl
    obtain ⟨effect, heffect, ⟨v, hok, hresults⟩ | hmismatch⟩ :=
      intrinsic?_operator sym loc hi a b below
    · exact ⟨effect, heffect, .inl ⟨[v], hok, hresults⟩⟩
    · exact ⟨effect, heffect, .inr hmismatch⟩

end Fold

namespace Follows

variable {sym : Symbols} {st : CheckState} {values : List Value}

/-- A primitive does the same to values and to their types. -/
theorem intrinsic (sym : Symbols) (h : Follows values st) {i : Intrinsic}
    (hi : i ∈ Intrinsic.foldable) (index : Nat) (loc : Location) :
    ∃ effect, Fold.intrinsic? sym loc i = some effect ∧
      Agree (effect values) (st.step sym index ⟨.intrinsic i, loc⟩) := by
  obtain ⟨effect, heffect⟩ : ∃ effect, Fold.intrinsic? sym loc i = some effect := by
    simp only [Intrinsic.foldable, Intrinsic.shuffles, List.cons_append, List.nil_append,
      List.mem_cons, List.not_mem_nil, or_false] at hi
    rcases hi with rfl | rfl | rfl | rfl | rfl | rfl | rfl | rfl | rfl | rfl <;> exact ⟨_, rfl⟩
  refine ⟨effect, heffect, ?_⟩
  rcases Nat.lt_or_ge values.length i.signature.ins.length with hshort | henough
  · obtain ⟨f, hf⟩ := h.step_short sym index (.intrinsic i) loc rfl hshort
    rw [hf]
    cases hok : effect values with
    | error g => exact .error
    | ok st' =>
      exact absurd (Fold.length_of_intrinsic? heffect hok) (Nat.not_le.mpr hshort)
  · obtain ⟨args, below, rfl, hlen⟩ : ∃ args below : List Value, values = args.reverse ++ below ∧
        args.length = i.signature.ins.length := by
      refine ⟨(values.take i.signature.ins.length).reverse, values.drop i.signature.ins.length, ?_,
        by simp [henough]⟩
      rw [List.reverse_reverse, List.take_append_drop]
    obtain ⟨effect', heffect', hcases⟩ := Fold.intrinsic?_types sym loc hi hlen below
    obtain rfl : effect' = effect := Option.some.inj (heffect'.symm.trans heffect)
    rcases hcases with ⟨results, hok, hresults⟩ | ⟨⟨f, hf⟩, hresults⟩
    · obtain ⟨next, hnext, hfollows⟩ := h.step sym index (.intrinsic i) loc results rfl hlen
        hresults
      rw [hok, hnext]
      exact .ok hfollows
    · obtain ⟨g, hg⟩ := h.step_mismatch sym index (.intrinsic i) loc rfl hlen hresults
      rw [hf, hg]
      exact .error

/-- A cast does the same to values and to their types. -/
theorem cast (h : Follows values st) {target : String} {ty : Ty}
    (hty : sym.castTarget? target = some ty) (word : String) (index : Nat) (loc : Location) :
    Agree (Fold.cast sym word target loc values) (st.step sym index ⟨.cast ty, loc⟩) := by
  cases values with
  | nil =>
    obtain ⟨f, hf⟩ := h.step_short sym index (.cast ty) loc rfl (Nat.lt_succ_self 0)
    simp only [hf, Fold.cast, hty]
    exact .error
  | cons v values =>
    have htop : Follows ([v].reverse ++ values) st := h
    obtain ⟨next, hnext, hfollows⟩ := htop.step sym index (.cast ty) loc [⟨v.bits, ty⟩] rfl
      rfl rfl
    simp only [hnext, Fold.cast, hty]
    exact .ok hfollows

end Follows

/-- Constants have types of values, and struct constants are named neither like primitives nor like
casts. -/
structure Symbols.Foldable (s : Symbols) : Prop where
  consts : ∀ c ∈ s.consts, c.value.ty ≠ .any
  structConsts : ∀ c ∈ s.structConsts,
    Intrinsic.ofName? c.name = none ∧ stripSigil? '#' c.name = none

theorem stripSigil?_of_ne {a b : Char} (hab : a ≠ b) {text rest : String}
    (h : stripSigil? a text = some rest) : stripSigil? b text = none := by
  unfold stripSigil? at h ⊢
  split at h
  · rename_i c cs hcs
    split at h
    · rename_i hc
      subst hc
      simp [hab]
    · cases h
  · cases h

namespace Resolution

/-- The tokens of constant expressions that mean the same in a body: literals, primitives that can
be folded, casts, and names that stand for constants there too. -/
inductive Foldable (r : Resolution) (t : Token) : Prop
  | literal {v : Value} (h : t.kind.literal? = some v)
  | primitive {i : Intrinsic} (h : t.kind = .word i.name) (hi : i ∈ Intrinsic.foldable)
  | cast {text target : String} (h : t.kind = .word text)
      (htarget : stripSigil? '#' text = some target)
  | constant {text : String} {m : Meaning} (h : t.kind = .word text)
      (hm : (r.structConst? text).or (r.const? text) = some m)
      (hlookup : r.lookup text t.loc = .ok (some m))

/-- In the body of a procedure in which no names are bound. -/
structure InBody (r : Resolution) : Prop where
  tables : r.symbols.Foldable
  body : ∃ id p, r.procedure? = some (id, p) ∧ p.bindings = []

variable {r : Resolution} {t : Token} {text : String} {loc eof : Location} {rest : List Token}

theorem InBody.current_ne_none (h : InBody r) : r.current ≠ none := by
  obtain ⟨id, p, hp, _⟩ := h.body
  simp [(procedure?_eq_some.mp hp).1]

theorem InBody.binding?_eq_none (h : InBody r) (text : String) : r.binding? text = none := by
  obtain ⟨id, p, hp, hbindings⟩ := h.body
  simp [binding?, hp, Procedure.bindingDepth?, hbindings]

theorem InBody.structConst?_eq_none (h : InBody r)
    (hname : ¬ (Intrinsic.ofName? text = none ∧ stripSigil? '#' text = none)) :
    r.structConst? text = none := by
  cases hc : r.symbols.findStructConst? text with
  | none => simp [structConst?, hc]
  | some found =>
    have hmem := List.mem_of_getElem? (Named.getElem?_of_last? hc)
    have hnames := h.tables.structConsts found.2 hmem
    rw [show found.2.name = text from Named.name_of_last? hc] at hnames
    exact absurd hnames hname

theorem InBody.lookup_primitive (h : InBody r) (i : Intrinsic) (loc : Location) :
    r.lookup i.name loc = .ok (some { ops := [.intrinsic i] }) := by
  have hconst : r.structConst? i.name = none :=
    h.structConst?_eq_none (by simp [i.ofName?_name])
  simp [lookup, hconst, memberAccess?, i.memberWord?_name, h.binding?_eq_none, primitive?,
    i.ofName?_name]

theorem ofName?_of_cast {target : String} (htarget : stripSigil? '#' text = some target) :
    Intrinsic.ofName? text = none := by
  cases hi : Intrinsic.ofName? text with
  | none => rfl
  | some i =>
    rw [← Intrinsic.name_of_ofName? hi, i.stripSigil?_name] at htarget
    cases htarget

/-- A cast means itself if its target is known. -/
theorem InBody.lookup_cast (h : InBody r) {target : String}
    (htarget : stripSigil? '#' text = some target) (loc : Location) :
    (∀ ty, r.symbols.castTarget? target = some ty →
      r.lookup text loc = .ok (some { ops := [.cast ty] })) ∧
    (r.symbols.castTarget? target = none → ∃ f, r.lookup text loc = .error f) := by
  have hconst : r.structConst? text = none := h.structConst?_eq_none (by simp [htarget])
  have hdot : stripSigil? '.' text = none := stripSigil?_of_ne (by decide) htarget
  have hfound : (r.structConst? text).or ((memberAccess? text).or
      ((r.binding? text).or (primitive? text))) = none := by
    simp [hconst, memberAccess?, memberWord?, hdot, h.binding?_eq_none, primitive?,
      ofName?_of_cast htarget]
  constructor
  · intro ty hty
    simp [lookup, hfound, htarget, hty]
  · intro hnone
    simp [lookup, hfound, htarget, hnone]

theorem step_literal {v : Value} (ht : t.kind.literal? = some v) {id : Nat} {p : Procedure}
    (hp : r.procedure? = some (id, p)) : r.step eof t rest = .ok (r.emitAll v.pushes t.loc, 0) := by
  obtain ⟨kind, loc⟩ := t
  have hrequire (what : String) : r.requireProcedure what loc = .ok (id, p) :=
    requireProcedure_eq_ok.mpr hp
  cases kind with
  | int n | ptr n =>
    cases ht
    simp [step, Resolution.literal, hrequire, Value.pushes, Value.int, Value.ptr, Except.map]
  | bool b =>
    cases ht
    simp [step, Resolution.literal, hrequire, Value.pushes_bool, Except.map]
  | keyword | word | str => cases ht

theorem step_word (ht : t.kind = .word text) {m : Meaning}
    (hm : r.lookup text t.loc = .ok (some m)) (hc : r.current ≠ none) :
    r.step eof t rest = .ok (r.emitAll m.ops t.loc, 0) := by
  simp [step, ht, word, hm, hc]

/-- A word that is found as a constant is neither a primitive nor a cast. -/
theorem InBody.names_of_constant (h : InBody r) {v : Value} {declared : Option Location}
    (hconst : r.structConst? text = none)
    (hlookup : r.lookup text loc = .ok (some ⟨v.pushes, declared⟩)) :
    Intrinsic.ofName? text = none ∧ stripSigil? '#' text = none := by
  -- What a constant pushes is none of the operations that are found earlier.
  have hpushes (kind : OpKind) (hk : v.pushes = [kind]) :
      (∀ i, kind ≠ .intrinsic i) ∧ (∀ access name, kind ≠ .member access name none) ∧
        ∀ ty, kind ≠ .cast ty := by
    obtain ⟨bits, ty⟩ := v
    cases ty <;> simp [Value.pushes] at hk <;> simp [← hk]
  simp only [lookup, hconst, h.binding?_eq_none, Option.none_or] at hlookup
  cases hmember : memberAccess? text with
  | some m =>
    obtain ⟨⟨access, name⟩, _, rfl⟩ := Option.map_eq_some_iff.mp hmember
    simp only [hmember, Option.some_or, Except.ok.injEq, Option.some.injEq, Meaning.mk.injEq]
      at hlookup
    exact absurd rfl ((hpushes _ hlookup.1.symm).2.1 access name)
  | none =>
    cases hname : Intrinsic.ofName? text with
    | some i =>
      simp only [hmember, primitive?, hname, Option.map_some, Option.none_or, Except.ok.injEq,
        Option.some.injEq, Meaning.mk.injEq] at hlookup
      exact absurd rfl ((hpushes _ hlookup.1.symm).1 i)
    | none =>
      refine ⟨rfl, ?_⟩
      cases hsigil : stripSigil? '#' text with
      | none => rfl
      | some target =>
        simp only [hmember, primitive?, hname, Option.map_none, Option.none_or, hsigil] at hlookup
        split at hlookup
        · rename_i ty _
          simp only [Except.ok.injEq, Option.some.injEq, Meaning.mk.injEq] at hlookup
          exact absurd rfl ((hpushes _ hlookup.1.symm).2.2 ty)
        · cases hlookup

/-- A name that stands for a constant is found as such by both readings. -/
theorem InBody.fold_constant (h : InBody r) {m : Meaning}
    (hm : (r.structConst? text).or (r.const? text) = some m)
    (hlookup : r.lookup text loc = .ok (some m)) (st : List Value) :
    ∃ values : List Value, Fold.word r.symbols text loc st = .ok (values.reverse ++ st) ∧
      m.ops = values.flatMap Value.pushes ∧ ∀ v ∈ values, v.ty ≠ .any := by
  rcases Option.or_eq_some_iff.mp hm with hm | ⟨hnone, hm⟩
  · obtain ⟨⟨i, c⟩, hc, rfl⟩ := Option.map_eq_some_iff.mp hm
    have hnames := h.tables.structConsts c (List.mem_of_getElem? (Named.getElem?_of_last? hc))
    rw [show c.name = text from Named.name_of_last? hc] at hnames
    refine ⟨r.symbols.constValues c, ?_, rfl, ?_⟩
    · simp [Fold.word, hnames, Fold.constant, hc]
    · intro v hv
      obtain ⟨j, _, hj⟩ := List.mem_filterMap.mp hv
      obtain ⟨d, hd, rfl⟩ := Option.map_eq_some_iff.mp hj
      exact h.tables.consts d (List.mem_of_getElem? hd)
  · obtain ⟨⟨i, c⟩, hc, rfl⟩ := Option.map_eq_some_iff.mp hm
    have hmem := List.mem_of_getElem? (Named.getElem?_of_last? hc)
    have hty := h.tables.consts c hmem
    have hstruct : r.symbols.findStructConst? text = none := by
      simpa [structConst?] using hnone
    obtain ⟨hname, hsigil⟩ := h.names_of_constant hnone hlookup
    refine ⟨[c.value], ?_, by simp, by simpa using hty⟩
    simp [Fold.word, hname, hsigil, Fold.constant, hstruct, hc]

/-- Resolves tokens and checks the operations that they stand for, from a given state of the checker
on. -/
def checkFrom (r : Resolution) (eof : Location) (st : CheckState) (ts : List Token) :
    Except Fault CheckState := do
  let r' ← run eof 0 r ts
  (CheckState.run r.symbols st r.code.ops.length (r'.code.ops.drop r.code.ops.length)).2

theorem InBody.emitAll (h : InBody r) (kinds : List OpKind) (loc : Location) :
    InBody (r.emitAll kinds loc) :=
  ⟨h.tables, h.body⟩

theorem Foldable.emitAll (h : r.Foldable t) (kinds : List OpKind) (loc : Location) :
    (r.emitAll kinds loc).Foldable t := by
  cases h with
  | literal h => exact .literal h
  | primitive h hi => exact .primitive h hi
  | cast h htarget => exact .cast h htarget
  | constant h hm hlookup => exact .constant h hm hlookup

theorem Foldable.ne_end (h : r.Foldable t) : t.kind ≠ .keyword .endKw := by
  intro hend
  cases h with
  | literal h =>
    rw [hend] at h
    cases h
  | primitive h | cast h | constant h =>
    rw [hend] at h
    cases h

/-- A token of a constant expression agrees with what it stands for in a body, where it only emits
operations. -/
theorem Foldable.agrees (ht : r.Foldable t) (h : InBody r) {values : List Value} {st : CheckState}
    (hf : Follows values st) (eof : Location) (rest : List Token) (index : Nat) :
    (∃ kinds, r.step eof t rest = .ok (r.emitAll kinds t.loc, 0) ∧
      Agree (Fold.token r.symbols t values)
        (CheckState.run r.symbols st index (kinds.map (⟨·, t.loc⟩))).2) ∨
    (∃ f, r.step eof t rest = .error f) ∧ ∃ f, Fold.token r.symbols t values = .error f := by
  cases ht with
  | @literal v hv =>
    obtain ⟨id, p, hp, _⟩ := h.body
    have hty : v.ty ≠ .any := by
      intro hany
      have hdeclared := declared_of_literal? hv 0
      rwa [hany] at hdeclared
    have htoken : Fold.token r.symbols t values = .ok (v :: values) := by
      unfold TokenKind.literal? at hv
      unfold Fold.token
      split at hv <;> simp_all
    obtain ⟨next, hnext, hfollows⟩ := hf.pushes r.symbols index t.loc hty
    refine .inl ⟨v.pushes, step_literal hv hp, ?_⟩
    rw [htoken, hnext]
    exact .ok hfollows
  | @primitive i hword hi =>
    obtain ⟨effect, heffect, hagree⟩ := hf.intrinsic r.symbols hi index t.loc
    refine .inl ⟨_, step_word hword (h.lookup_primitive i t.loc) h.current_ne_none, ?_⟩
    have htoken : Fold.token r.symbols t values = effect values := by
      simp [Fold.token, hword, Fold.word, i.ofName?_name, heffect]
    rw [htoken, List.map_singleton, CheckState.run_singleton]
    exact hagree
  | @cast text target hword htarget =>
    have htoken : Fold.token r.symbols t values = Fold.cast r.symbols text target t.loc values := by
      simp [Fold.token, hword, Fold.word, ofName?_of_cast htarget, htarget]
    rw [htoken]
    obtain ⟨hknown, hunknown⟩ := h.lookup_cast htarget t.loc
    cases hty : r.symbols.castTarget? target with
    | some ty =>
      refine .inl ⟨_, step_word hword (hknown ty hty) h.current_ne_none, ?_⟩
      rw [List.map_singleton, CheckState.run_singleton]
      exact hf.cast hty text index t.loc
    | none =>
      obtain ⟨f, hlookup⟩ := hunknown hty
      refine .inr ⟨⟨f, ?_⟩, ⟨_, by simp only [Fold.cast, hty]; rfl⟩⟩
      simp [step, hword, word, hlookup]
  | @constant text m hword hm hlookup =>
    obtain ⟨vs, hfold, hops, hvs⟩ := h.fold_constant hm hlookup values
    obtain ⟨next, hnext, hfollows⟩ := hf.pushAll r.symbols index t.loc hvs
    refine .inl ⟨_, step_word hword hlookup h.current_ne_none, ?_⟩
    have htoken : Fold.token r.symbols t values = .ok (vs.reverse ++ values) := by
      simp [Fold.token, hword, hfold]
    rw [htoken, hops, hnext]
    exact .ok hfollows

theorem checkFrom_error {f : Fault} {e : List Token} (hstep : r.step eof t e = .error f)
    (st : CheckState) : r.checkFrom eof st (t :: e) = .error f := by
  simp [checkFrom, run, hstep]

/-- A check of tokens goes on behind the first of them. -/
theorem checkFrom_cons {kinds : List OpKind} {e : List Token}
    (hstep : r.step eof t e = .ok (r.emitAll kinds t.loc, 0)) (st : CheckState) :
    (∀ next, (CheckState.run r.symbols st r.code.ops.length (kinds.map (⟨·, t.loc⟩))).2 = .ok next →
      r.checkFrom eof st (t :: e) = (r.emitAll kinds t.loc).checkFrom eof next e) ∧
    ∀ f, (CheckState.run r.symbols st r.code.ops.length (kinds.map (⟨·, t.loc⟩))).2 = .error f →
      ∃ g, r.checkFrom eof st (t :: e) = .error g := by
  have hrun : run eof 0 r (t :: e) = run eof 0 (r.emitAll kinds t.loc) e := by
    simp [run, hstep]
  cases hrest : run eof 0 (r.emitAll kinds t.loc) e with
  | error g => simp [checkFrom, hrun, hrest]
  | ok r' =>
    obtain ⟨ops, hops, _⟩ := (reaches_of_run hrest).ops
    have hold : r'.code.ops.drop r.code.ops.length = kinds.map (⟨·, t.loc⟩) ++ ops := by
      simp [hops, Resolution.emitAll, Code.emitAll]
    have hnew : r'.code.ops.drop (r.emitAll kinds t.loc).code.ops.length = ops := by
      rw [hops, List.drop_left]
    simp only [checkFrom, hrun, hrest, ok_bind, hold, hnew]
    constructor
    · intro next hnext
      rw [CheckState.run_append_ok hnext]
      simp [Resolution.emitAll, Code.emitAll]
    · intro f hf
      exact ⟨f, CheckState.run_append_error hf⟩

/-- A constant expression agrees with what it stands for in a body. -/
theorem InBody.agrees (h : InBody r) {e : List Token} (he : ∀ t ∈ e, r.Foldable t) {last : Token}
    (hlast : last.kind = .keyword .endKw) {values : List Value} {st : CheckState}
    (hf : Follows values st) (eof eof' : Location) (rest : List Token) (count : Nat) :
    Agree ((Fold.run r.symbols eof values count (e ++ last :: rest)).map (·.values.reverse))
      (r.checkFrom eof' st e) := by
  induction e generalizing r values st count with
  | nil =>
    simp only [List.nil_append, Fold.run, hlast, if_true, Except.map, List.reverse_reverse]
    simpa [checkFrom, run, CheckState.run] using Agree.ok hf
  | cons t e ih =>
    obtain ⟨ht, he⟩ := List.forall_mem_cons.mp he
    simp only [List.cons_append, Fold.run, ht.ne_end, if_false]
    rcases ht.agrees h hf eof' e r.code.ops.length with ⟨kinds, hstep, hagree⟩ | ⟨⟨f, hstep⟩, g, hg⟩
    · obtain ⟨hok, herror⟩ := checkFrom_cons hstep st
      generalize Fold.token r.symbols t values = folded at hagree ⊢
      generalize hchecked : (CheckState.run r.symbols st r.code.ops.length
        (kinds.map (⟨·, t.loc⟩))).2 = checked at hagree
      cases hagree with
      | ok hfollows =>
        rw [hok _ hchecked]
        exact ih (h.emitAll kinds t.loc) (fun u hu => (he u hu).emitAll kinds t.loc) hfollows _
      | error =>
        obtain ⟨g, hg⟩ := herror _ hchecked
        rw [hg]
        exact .error
    · rw [checkFrom_error hstep, hg]
      exact .error

/-- A word that starts a declaration is neither a primitive nor a cast. -/
theorem names_of_undeclared (hlookup : r.lookup text loc = .ok none) :
    Intrinsic.ofName? text = none ∧ stripSigil? '#' text = none := by
  obtain ⟨⟨_, _, _, hprimitive⟩, hsigil, _⟩ := lookup_eq_none hlookup
  exact ⟨Option.map_eq_none_iff.mp hprimitive, hsigil⟩

/-- New struct constants have names that had no meaning before. -/
theorem Move.structConsts {r' : Resolution} {used : Nat} (h : Move eof r t rest r' used) :
    ∀ c ∈ r'.symbols.structConsts,
      c ∈ r.symbols.structConsts ∨ r.lookup c.name t.loc = .ok none := by
  cases h with
  | declare ht hm hs hshape hproc hr =>
    intro c hc
    rcases (declareShape_adds hproc hr).structConsts c hc with hc | rfl
    · exact .inl hc
    · exact .inr hm
  | declareProc ht hm hs hshape hr =>
    obtain ⟨_, p, _, _, _, _, _, rfl⟩ := declareProc_eq_ok hr
    exact fun c hc => .inl hc
  | literal | string | word | openIf | openElse | openLet | closeIf | closeElse | closeLet
  | closeProc => exact fun c hc => .inl hc

theorem Reaches.foldable {ts : List Token} (h : Reaches eof {} ts r rest) : r.symbols.Foldable where
  consts c hc hany := by
    have hdeclared := (h.sound .empty).tables.consts c hc
    rwa [hany] at hdeclared
  structConsts := by
    induction h with
    | start => simp
    | step h hstep ih =>
      intro c hc
      rcases (step_move hstep).structConsts c hc with hc | hlookup
      · exact ih c hc
      · exact names_of_undeclared hlookup

end Resolution

theorem Fold.run_procs (sym : Symbols) (procs : List Procedure) (eof : Location) (st : List Value)
    (count : Nat) (ts : List Token) :
    run { sym with procs := procs } eof st count ts = run sym eof st count ts := by
  induction ts generalizing st count with
  | nil => rfl
  | cons t ts ih =>
    have htoken : token { sym with procs := procs } t st = token sym t st := rfl
    simp only [run, htoken, ih]

/-- A constant expression can be folded exactly when it can stand in the body of a procedure, with
the same types: what is left on the stack there has the types of the folded values, and nothing is
left exactly when the fold counts as elided. The words that rearrange the stack do with the folded
values what their signatures say about operands in a body. -/
theorem constant_expressions_agree_with_bodies {eof : Location} {ts rest₀ : List Token}
    {r₀ : Resolution} (hreaches : Resolution.Reaches eof {} ts r₀ rest₀) (r : Resolution)
    (procs : List Procedure) (hsymbols : r.symbols = { r₀.symbols with procs := procs }) (id : Nat)
    (p : Procedure) (hproc : r.procedure? = some (id, p)) (hbindings : p.bindings = [])
    (e : List Token) (he : ∀ t ∈ e, r.Foldable t) (last : Token)
    (hlast : last.kind = .keyword .endKw) (rest : List Token) :
    ((∃ folded, Folded.ofTokens r₀.symbols eof (e ++ last :: rest) = .ok folded) ↔
      ∃ st, r.checkFrom eof { current := r.current } e = .ok st) ∧
    (∀ folded st, Folded.ofTokens r₀.symbols eof (e ++ last :: rest) = .ok folded →
      r.checkFrom eof { current := r.current } e = .ok st →
      st.stack.types = folded.values.map (·.ty) ∧ (st.stack.types = [] ↔ folded.isElided)) ∧
    ∀ i ∈ Intrinsic.shuffles, ∀ loc (args below : List Value),
      args.length = i.signature.ins.length →
      ∃ picked, i.signature.outs.mapM (Outcome.pick? args) = some picked ∧
        Fold.token r₀.symbols ⟨.word i.name, loc⟩ (args.reverse ++ below) =
          .ok (picked.reverse ++ below) := by
  have htables : r.symbols.Foldable := by
    rw [hsymbols]
    exact ⟨hreaches.foldable.consts, hreaches.foldable.structConsts⟩
  have hbody : r.InBody := ⟨htables, id, p, hproc, hbindings⟩
  have hstart : Follows [] { current := r.current } :=
    ⟨rfl, Int.le_refl 0, hbody.current_ne_none⟩
  have hagree := hbody.agrees he hlast hstart eof eof rest 0
  rw [hsymbols, Fold.run_procs, ← Folded.ofTokens] at hagree
  refine ⟨?_, ?_, ?_⟩
  · cases hfold : Folded.ofTokens r₀.symbols eof (e ++ last :: rest) with
    | error f =>
      rw [hfold] at hagree
      generalize r.checkFrom eof { current := r.current } e = checked at hagree ⊢
      cases hagree
      simp
    | ok folded =>
      rw [hfold] at hagree
      generalize r.checkFrom eof { current := r.current } e = checked at hagree ⊢
      cases hagree
      simp
  · intro folded st hfold hcheck
    rw [hfold, hcheck] at hagree
    cases hagree with
    | ok hfollows =>
      have htypes : st.stack.types = folded.values.map (·.ty) := by
        rw [TypeStack.types, hfollows.types, List.map_reverse, List.reverse_reverse]
      refine ⟨htypes, ?_⟩
      simp [htypes, Folded.isElided]
  · intro i hi loc args below hlen
    obtain ⟨effect, picked, heffect, hpicked, hok, _⟩ :=
      Fold.intrinsic?_shuffle r₀.symbols loc hi hlen below
    refine ⟨picked, hpicked, ?_⟩
    simp [Fold.token, Fold.word, i.ofName?_name, heffect, hok]

def samplePlace : Location :=
  ⟨"sample", 1, 1, ⟨0, 0⟩⟩

def sampleTokens : List Token :=
  [.word "P", .keyword .structKw, .word "x", .keyword .intKw, .word "q", .keyword .ptrKw,
    .keyword .endKw, .word "o", .keyword .colon, .word "P", .keyword .colon, .keyword .colon,
    .int 7, .ptr 0, .keyword .endKw, .word "k", .keyword .colon, .keyword .colon, .int 1, .int 1,
    .word "=", .keyword .endKw].map (⟨·, samplePlace⟩)

def sampleTables : Resolution :=
  (Resolution.run samplePlace 0 {} sampleTokens).toOption.getD {}

def sampleBody : Resolution :=
  { sampleTables with
    symbols := { sampleTables.symbols with
      procs := [{ name := "main", ins := [], outs := [], loc := samplePlace }] }
    current := some 0 }

def sampleExpression : List Token :=
  [.word "o", .word "drop", .word "k", .word "k", .word "!=", .word "#int", .word "+"].map
    (⟨·, samplePlace⟩)

theorem sample_expression_agrees_with_body :
    ∃ folded st, Folded.ofTokens sampleTables.symbols samplePlace
        (sampleExpression ++ [⟨.keyword .endKw, samplePlace⟩]) = .ok folded ∧
      sampleBody.checkFrom samplePlace { current := sampleBody.current } sampleExpression = .ok st ∧
      st.stack.types = folded.values.map (·.ty) := by
  have hrun : Resolution.run samplePlace 0 {} sampleTokens = .ok sampleTables := rfl
  have hfoldable : ∀ t ∈ sampleExpression, sampleBody.Foldable t := by
    simp only [sampleExpression, List.map_cons, List.map_nil, List.forall_mem_cons]
    exact ⟨.constant rfl rfl rfl, .primitive (i := .drop) rfl (by decide), .constant rfl rfl rfl,
      .constant rfl rfl rfl, .primitive (i := .ne) rfl (by decide), .cast rfl rfl,
      .primitive (i := .add) rfl (by decide), by simp⟩
  obtain ⟨hiff, htypes, _⟩ := constant_expressions_agree_with_bodies
    (Resolution.reaches_of_run hrun) sampleBody _ rfl 0 _ rfl rfl sampleExpression hfoldable
    ⟨.keyword .endKw, samplePlace⟩ rfl []
  have hfold : ∃ folded, Folded.ofTokens sampleTables.symbols samplePlace
      (sampleExpression ++ [⟨.keyword .endKw, samplePlace⟩]) = .ok folded := ⟨_, rfl⟩
  obtain ⟨st, hst⟩ := hiff.mp hfold
  obtain ⟨folded, hfolded⟩ := hfold
  exact ⟨folded, st, hfolded, hst, (htypes folded st hfolded hst).1⟩

end StackEffect
