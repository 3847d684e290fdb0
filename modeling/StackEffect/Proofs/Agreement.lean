import StackEffect.Proofs.Nesting
import StackEffect.Proofs.Pass

/-! # Resolution and checking agree on the blocks

Both passes keep a stack of open blocks, and they keep it in different ways. Here they stay in step:
the checker never meets a block that is closed wrongly, a binding out of scope or a reference to
nothing. So a program that resolution accepts can only be rejected for the effect it has on the
stack.
-/

namespace StackEffect

section Declared

variable {sym : Symbols} {kind : OpKind} {bound args types : List Ty}

theorem mem_of_shared? {l : List (Operand × Ty)} {ty : Ty} (h : Signature.shared? l = some ty) :
    ∃ p ∈ l, p.2 = ty := by
  induction l with
  | nil => cases h
  | cons p l ih =>
    obtain ⟨operand, ty'⟩ := p
    cases operand with
    | same =>
      cases h
      exact ⟨_, List.mem_cons_self, rfl⟩
    | exact wanted =>
      obtain ⟨p, hp, hty⟩ := ih h
      exact ⟨p, List.mem_cons_of_mem _ hp, hty⟩
    | any =>
      obtain ⟨p, hp, hty⟩ := ih h
      exact ⟨p, List.mem_cons_of_mem _ hp, hty⟩

/-- No primitive leaves a struct unless it finds one. -/
theorem Intrinsic.declared_of_exact (i : Intrinsic) {ty : Ty} (count : Nat)
    (h : .exact ty ∈ i.signature.outs) : ty.Declared count := by
  cases i <;> simp [signature] at h <;> subst h <;> trivial

/-- Where results have the type that some operands share, there are such operands. -/
theorem Intrinsic.shared?_ne_none (i : Intrinsic) (h : .same ∈ i.signature.outs)
    (hlen : args.length = i.signature.ins.length) :
    Signature.shared? (i.signature.ins.zip args) ≠ none := by
  cases args with
  | nil => cases i <;> cases hlen
  | cons a args => cases i <;> simp [signature, Signature.shared?] at h ⊢

theorem declared_of_results? {i : Intrinsic} {count : Nat} (hargs : ∀ ty ∈ args, ty.Declared count)
    (hlen : args.length = i.signature.ins.length) (h : i.signature.results? args = some types) :
    ∀ ty ∈ types, ty.Declared count := by
  simp only [Signature.results?] at h
  split at h
  · cases h
    intro ty hty
    obtain ⟨out, hout, hty⟩ := List.mem_filterMap.mp hty
    cases out with
    | exact ty' =>
      cases hty
      exact i.declared_of_exact count hout
    | input j => exact hargs ty (List.mem_of_getElem? hty)
    | same =>
      cases hty
      cases hshared : Signature.shared? (i.signature.ins.zip args) with
      | none => exact absurd hshared (i.shared?_ne_none hout hlen)
      | some shared =>
        obtain ⟨p, hp, rfl⟩ := mem_of_shared? hshared
        exact hargs p.2 (List.of_mem_zip hp).2
  · cases h

/-- A plain operation leaves types that are declared. -/
theorem declared_of_outcome? (hsym : sym.WellFormed) (hvalid : kind.Valid sym)
    (hbound : ∀ ty ∈ bound, ty.Declared sym.structs.length)
    (hargs : ∀ ty ∈ args, ty.Declared sym.structs.length) (hlen : args.length = kind.operands sym)
    (h : kind.outcome? sym bound args = some types) :
    ∀ ty ∈ types, ty.Declared sym.structs.length := by
  cases kind with
  | pushInt | pushBool | pushPtr | pushMem =>
    cases h
    exact List.forall_mem_singleton.mpr trivial
  | pushStr =>
    cases h
    exact List.forall_mem_cons.mpr ⟨trivial, List.forall_mem_singleton.mpr trivial⟩
  | intrinsic i => exact declared_of_results? hargs hlen h
  | cast ty | loadVar _ ty | varAddr _ ty =>
    cases h
    exact List.forall_mem_singleton.mpr hvalid
  | call id =>
    obtain ⟨p, hp, h⟩ := Option.bind_eq_some_iff.mp h
    split at h
    · cases h
      exact (hsym.procs p (List.mem_of_getElem? hp)).outs
    · cases h
  | pushBinding depth =>
    obtain ⟨ty, hty, rfl⟩ := Option.map_eq_some_iff.mp h
    exact List.forall_mem_singleton.mpr (hbound ty (List.mem_of_getElem? hty))
  | storeVar ref ty =>
    obtain ⟨v, hv, h⟩ := Option.bind_eq_some_iff.mp h
    split at h
    · cases h
      simp
    · cases h
  | member access name offset =>
    simp only [OpKind.outcome?] at h
    split at h
    · obtain ⟨⟨i, m⟩, hm, rfl⟩ := Option.map_eq_some_iff.mp h
      obtain ⟨d, hd, hm⟩ := Option.bind_eq_some_iff.mp hm
      refine List.forall_mem_singleton.mpr ?_
      cases access with
      | load =>
        have hmem := List.mem_of_getElem? (Named.getElem?_of_first? hm)
        exact hsym.structs d (List.mem_of_getElem? hd) m hmem
      | addr => trivial
    · cases h
  | ifBegin | ifElse | ifEnd | elseEnd | bind | unbind | procBegin | procEnd => cases h

end Declared

/-- The bindings and branches of the checker match the open blocks. -/
inductive Aligned : Option Nat → List Block → List Frame → List Branch → Prop
  | outside : Aligned none [] [] []
  | body {b : Block} {id : Nat} (hk : b.kind = .procBlock id) : Aligned (some id) [b] [] []
  | inLet {id : Nat} {b : Block} {blocks : List Block} {frames bindings : List Frame}
      {branches : List Branch} (hk : b.kind = .letBlock frames.length)
      (h : Aligned (some id) blocks bindings branches) :
      Aligned (some id) (b :: blocks) (frames ++ bindings) branches
  | inThen {id : Nat} {b : Block} {blocks : List Block} {bindings : List Frame}
      {branch : Branch} {branches : List Branch} (hk : b.kind = .ifBlock)
      (hopener : branch.opener = b.opener) (hbindings : branch.bindings = bindings)
      (hend : branch.thenEnd = none) (h : Aligned (some id) blocks bindings branches) :
      Aligned (some id) (b :: blocks) bindings (branch :: branches)
  | inElse {id : Nat} {b : Block} {blocks : List Block} {bindings : List Frame}
      {branch : Branch} {branches : List Branch} {thenEnd : BranchEnd} (hk : b.kind = .elseBlock)
      (hopener : branch.opener = b.opener) (hbindings : branch.bindings = bindings)
      (hend : branch.thenEnd = some thenEnd) (h : Aligned (some id) blocks bindings branches) :
      Aligned (some id) (b :: blocks) bindings (branch :: branches)

namespace Aligned

variable {current : Option Nat} {b : Block} {blocks : List Block} {bindings : List Frame}
  {branches : List Branch}

theorem current_ne_none (h : Aligned current blocks bindings branches) (hin : blocks ≠ []) :
    current ≠ none := by
  cases h with
  | outside => exact absurd rfl hin
  | body | inLet | inThen | inElse => simp

theorem of_nil (h : Aligned current [] bindings branches) :
    current = none ∧ bindings = [] ∧ branches = [] := by
  cases h
  exact ⟨rfl, rfl, rfl⟩

theorem of_body (h : Aligned current [b] bindings branches) {id : Nat}
    (hk : b.kind = .procBlock id) : current = some id ∧ bindings = [] ∧ branches = [] := by
  cases h with
  | body hbody =>
    rw [hbody] at hk
    cases hk
    exact ⟨rfl, rfl, rfl⟩
  | inLet hother | inThen hother | inElse hother =>
    rw [hother] at hk
    cases hk

theorem of_let (h : Aligned current (b :: blocks) bindings branches) {count : Nat}
    (hk : b.kind = .letBlock count) :
    ∃ frames rest, bindings = frames ++ rest ∧ frames.length = count ∧
      Aligned current blocks rest branches := by
  cases h with
  | inLet hlet h =>
    rw [hlet] at hk
    cases hk
    exact ⟨_, _, rfl, rfl, h⟩
  | body hother | inThen hother | inElse hother =>
    rw [hother] at hk
    cases hk

theorem of_then (h : Aligned current (b :: blocks) bindings branches) (hk : b.kind = .ifBlock) :
    ∃ branch rest, branches = branch :: rest ∧ branch.opener = b.opener ∧
      branch.bindings = bindings ∧ branch.thenEnd = none ∧
      Aligned current blocks bindings rest := by
  cases h with
  | inThen _ hopener hbindings hend h => exact ⟨_, _, rfl, hopener, hbindings, hend, h⟩
  | body hother | inLet hother | inElse hother =>
    rw [hother] at hk
    cases hk

theorem of_else (h : Aligned current (b :: blocks) bindings branches) (hk : b.kind = .elseBlock) :
    ∃ branch rest thenEnd, branches = branch :: rest ∧ branch.opener = b.opener ∧
      branch.bindings = bindings ∧ branch.thenEnd = some thenEnd ∧
      Aligned current blocks bindings rest := by
  cases h with
  | inElse _ hopener hbindings hend h => exact ⟨_, _, _, rfl, hopener, hbindings, hend, h⟩
  | body hother | inLet hother | inThen hother =>
    rw [hother] at hk
    cases hk

theorem length_eq (h : Aligned current blocks bindings branches) :
    bindings.length = Block.bound blocks := by
  induction h with
  | outside => rfl
  | body hk => simp [Block.bound, hk]
  | inLet hk h ih => simp [Block.bound, hk, ih]
  | inThen hk _ _ _ h ih => simpa [Block.bound, hk] using ih
  | inElse hk _ _ _ h ih => simpa [Block.bound, hk] using ih

end Aligned

def effectKinds : List CauseKind :=
  [.arity, .typeMismatch, .unknownMember, .contract]

namespace CheckState

structure Typed (count : Nat) (st : CheckState) : Prop where
  stack : ∀ f ∈ st.stack.frames, f.ty.Declared count
  bindings : ∀ f ∈ st.bindings, f.ty.Declared count
  branches : ∀ b ∈ st.branches, ∀ f ∈ b.entry.frames, f.ty.Declared count

variable {sym : Symbols} {st next : CheckState} {index : Nat} {op : Op} {blocks after : List Block}

theorem Typed.bound {count : Nat} (h : st.Typed count) : ∀ ty ∈ st.bound, ty.Declared count :=
  List.forall_mem_map.mpr h.bindings

/-- One move keeps the bindings and branches in step with the blocks. -/
theorem Move.aligned (hmove : Move sym index st op next) (hnests : Nests index op blocks after)
    (h : Aligned st.current blocks st.bindings st.branches) :
    Aligned next.current after next.bindings next.branches := by
  cases hmove with
  | plain hk =>
    cases hnests with
    | plain => exact h
    | procBegin | procEnd | ifBegin | ifElse | ifEnd | elseEnd | bind | unbind => cases hk
  | ifBegin hc hf hty =>
    cases hnests with
    | plain hk => cases hk
    | ifBegin hin =>
      obtain ⟨id, hid⟩ := Option.ne_none_iff_exists'.mp hc
      simp only [hid] at h ⊢
      exact .inThen rfl rfl rfl rfl h
  | ifElse hc hb hend hthen =>
    cases hnests with
    | plain hk => cases hk
    | ifElse hk hopener =>
      obtain ⟨branch, rest, hbranches, _, hbindings, _, h⟩ := h.of_then hk
      obtain ⟨id, hid⟩ := Option.ne_none_iff_exists'.mp hc
      rw [hb] at hbranches
      cases hbranches
      simp only [hid, hbindings] at h ⊢
      exact .inElse rfl rfl rfl rfl h
  | ifEnd hc hb =>
    cases hnests with
    | plain hk => cases hk
    | ifEnd hk hopener =>
      obtain ⟨branch, rest, hbranches, _, _, _, h⟩ := h.of_then hk
      rw [hb] at hbranches
      cases hbranches
      exact h
  | elseEnd hc hb =>
    cases hnests with
    | plain hk => cases hk
    | elseEnd hk hopener =>
      obtain ⟨branch, rest, thenEnd, hbranches, _, _, _, h⟩ := h.of_else hk
      rw [hb] at hbranches
      cases hbranches
      exact h
  | bind hc hf =>
    cases hnests with
    | plain hk => cases hk
    | bind hin =>
      obtain ⟨id, hid⟩ := Option.ne_none_iff_exists'.mp hc
      simp only [hid] at h ⊢
      exact .inLet (by simp) h
  | unbind hc hcount =>
    cases hnests with
    | plain hk => cases hk
    | unbind hk =>
      obtain ⟨frames, rest, hbindings, rfl, h⟩ := h.of_let hk
      simp only [hbindings, List.drop_left]
      exact h
  | procBegin hc hp =>
    cases hnests with
    | plain hk => cases hk
    | procBegin =>
      obtain ⟨_, _, hbranches⟩ := h.of_nil
      simp only [hbranches]
      exact .body rfl
  | procEnd hc hp hb htypes =>
    cases hnests with
    | plain hk => cases hk
    | procEnd hk =>
      simp only [hb]
      exact .outside

/-- One move keeps all types declared. -/
theorem Move.typed (hmove : Move sym index st op next) (hsym : sym.WellFormed)
    (hvalid : op.kind.Valid sym) (hnests : Nests index op blocks after)
    (haligned : Aligned st.current blocks st.bindings st.branches)
    (h : st.Typed sym.structs.length) : next.Typed sym.structs.length := by
  cases hmove with
  | @plain kind loc args rest res hk hc hf hlen hout =>
    have hargs : ∀ ty ∈ args.map (·.ty), ty.Declared sym.structs.length :=
      List.forall_mem_map.mpr fun f hmem => h.stack f (by rw [hf]; simp [hmem])
    have hres := List.forall_mem_map.mp (declared_of_outcome? hsym hvalid h.bound hargs
      (by rw [List.length_map, hlen]) hout)
    refine ⟨?_, h.bindings, h.branches⟩
    simp only [replace, TypeStack.pushAll_eq, TypeStack.popped, List.forall_mem_append,
      List.mem_reverse]
    exact ⟨hres, fun f hmem => h.stack f (List.mem_of_mem_drop hmem)⟩
  | ifBegin hc hf hty =>
    have hpopped : ∀ f ∈ (st.stack.popped 1).frames, f.ty.Declared sym.structs.length :=
      fun f hmem => h.stack f (List.mem_of_mem_drop hmem)
    exact ⟨hpopped, h.bindings, List.forall_mem_cons.mpr ⟨hpopped, h.branches⟩⟩
  | @ifElse loc b branches hc hb hend thenEnd hthen =>
    have hbranches := h.branches
    rw [hb, List.forall_mem_cons] at hbranches
    cases hnests with
    | plain hk => cases hk
    | ifElse hk hopener =>
      obtain ⟨branch, rest, heq, _, hbindings, _⟩ := haligned.of_then hk
      rw [hb] at heq
      cases heq
      refine ⟨hbranches.1, ?_, List.forall_mem_cons.mpr hbranches⟩
      simp only [hbindings]
      exact h.bindings
  | ifEnd hc hb | elseEnd hc hb =>
    refine ⟨h.stack, h.bindings, fun b hmem => h.branches b ?_⟩
    rw [hb]
    exact List.mem_cons_of_mem _ hmem
  | bind hc hf =>
    refine ⟨fun f hmem => h.stack f (List.mem_of_mem_drop hmem), ?_, h.branches⟩
    refine List.forall_mem_append.mpr ⟨fun f hmem => h.stack f ?_, h.bindings⟩
    rw [hf]
    exact List.mem_append_left _ hmem
  | unbind hc hcount =>
    exact ⟨h.stack, fun f hmem => h.bindings f (List.mem_of_mem_drop hmem), h.branches⟩
  | procBegin hc hp =>
    have hins := (hsym.procs _ (List.mem_of_getElem? hp)).ins
    refine ⟨fun f hmem => ?_, by simp, h.branches⟩
    obtain ⟨ty, hty, rfl⟩ := List.mem_map.mp (List.mem_reverse.mp hmem)
    exact hins ty hty
  | procEnd hc hp hb htypes => exact ⟨by simp, by simp, h.branches⟩

/-- A step is taken, or fails for an effect on the stack. -/
def Fair (result : Except Fault CheckState) : Prop :=
  (∃ next, result = .ok next) ∨ ∃ f, result = .error f ∧ f.cause.kind ∈ effectKinds

theorem grounded_of_valid {kind : OpKind} {args : List Ty} (hvalid : kind.Valid sym)
    (hdepth : ∀ d, kind = .pushBinding d → d < st.bindings.length)
    (hargs : ∀ ty ∈ args, ty.Declared sym.structs.length) : kind.Grounded sym st.bound args := by
  cases kind with
  | call id => exact hvalid
  | storeVar ref ty => exact hvalid
  | pushBinding depth =>
    simp only [OpKind.Grounded, bound, List.length_map]
    exact hdepth depth rfl
  | member access name offset =>
    rintro id rfl
    exact hargs (.struct id) List.mem_cons_self
  | _ => trivial

theorem fair_of_plain (hk : op.kind.isPlain) (hc : st.current ≠ none) (hs : st.stack.Settled)
    (hvalid : op.kind.Valid sym) (htyped : st.Typed sym.structs.length)
    (hdepth : ∀ d, op.kind = .pushBinding d → d < st.bindings.length) :
    Fair (st.step sym index op) := by
  obtain ⟨kind, loc⟩ := op
  rw [step_inside sym index _ hc]
  rcases effect_cases index loc hk hs with
    ⟨f, hf, harity⟩ | ⟨args, rest, hframes, hlen, ⟨f, hf, hground⟩ | ⟨res, _, hok⟩⟩
  · refine .inr ⟨f, hf, ?_⟩
    rw [harity fun ref ty hkind => by subst hkind; exact hvalid]
    decide
  · have hargs : ∀ ty ∈ args.map (·.ty), ty.Declared sym.structs.length :=
      List.forall_mem_map.mpr fun f hmem => htyped.stack f (by rw [hframes]; simp [hmem])
    refine .inr ⟨f, hf, ?_⟩
    rcases hground (grounded_of_valid hvalid hdepth hargs) with hkind | hkind
    · rw [hkind]
      decide
    · rw [hkind]
      decide
  · exact .inl ⟨_, hok⟩

theorem fair_of_openIf (hc : st.current ≠ none) {loc : Location} :
    Fair (st.step sym index ⟨.ifBegin, loc⟩) := by
  rw [step_inside sym index _ hc]
  cases hf : st.stack.frames with
  | nil =>
    have hshort : st.stack.frames.length < 1 := by simp [hf]
    exact .inr ⟨_, by simp only [effect, openIf, popOne_short hshort, error_bind]; rfl,
      by simp [effectKinds, Cause.kind]⟩
  | cons f rest =>
    simp only [effect, openIf, popOne_ok hf, ok_bind, Symbols.expectType]
    split
    · exact .inl ⟨_, rfl⟩
    · exact .inr ⟨_, rfl, by simp [effectKinds, Cause.kind]⟩

theorem fair_of_bind (hc : st.current ≠ none) (hs : st.stack.Settled) {count : Nat}
    {loc : Location} : Fair (st.step sym index ⟨.bind count, loc⟩) := by
  rw [step_inside sym index _ hc]
  rcases Nat.lt_or_ge st.stack.frames.length count with hshort | henough
  · exact .inr ⟨_, by simp only [effect, CheckState.bind, pop_short hs hshort, error_bind]; rfl,
      by simp [effectKinds, Cause.kind]⟩
  · simp only [effect, CheckState.bind, pop, TypeStack.popMany?_eq hs, henough, if_true, ok_bind]
    exact .inl ⟨_, rfl⟩

/-- Where the blocks are in step, an operation that is properly nested and refers to what is
declared fails for its effect on the stack only. -/
theorem fair_of_nests (hnests : Nests index op blocks after) (hvalid : op.kind.Valid sym)
    (h : Aligned st.current blocks st.bindings st.branches) (htyped : st.Typed sym.structs.length)
    (hs : st.stack.Settled) : Fair (st.step sym index op) := by
  cases hnests with
  | plain hk hin hdepth =>
    refine fair_of_plain hk (h.current_ne_none hin) hs hvalid htyped fun d hd => ?_
    rw [h.length_eq]
    exact hdepth d hd
  | @procBegin id loc =>
    obtain ⟨hc, _, _⟩ := h.of_nil
    have hp : sym.procs[id]? = some sym.procs[id] := List.getElem?_eq_getElem hvalid
    exact .inl ⟨_, (Move.procBegin hc hp).step_eq hs rfl⟩
  | @procEnd b id frame loc hk =>
    obtain ⟨hc, _, hb⟩ := h.of_body hk
    have hp : sym.procs[id]? = some sym.procs[id] := List.getElem?_eq_getElem hvalid
    rw [step_inside sym index _ (by simp [hc])]
    simp only [effect, endProc, Symbols.procAt, hp, ok_bind, hb]
    split
    · exact .inl ⟨_, rfl⟩
    · exact .inr ⟨_, rfl, by simp [effectKinds, Cause.kind]⟩
  | ifBegin hin => exact fair_of_openIf (h.current_ne_none hin)
  | @ifElse b blocks opener loc hk hopener =>
    obtain ⟨branch, rest, hb, hsame, _, hend, _⟩ := h.of_then hk
    have hc := h.current_ne_none (List.cons_ne_nil _ _)
    have hmove : Move sym index st ⟨.ifElse branch.opener, loc⟩ _ := .ifElse hc hb hend rfl
    rw [hsame, hopener] at hmove
    exact .inl ⟨_, hmove.step_eq hs rfl⟩
  | ifEnd hk hopener =>
    obtain ⟨branch, rest, hb, hsame, _, hend, _⟩ := h.of_then hk
    have hc := h.current_ne_none (List.cons_ne_nil _ _)
    rw [step_inside sym index _ hc]
    simp only [effect, closeIf, popBranch, hb, hsame, hopener, if_true, ok_bind, hend,
      Option.isSome_none, Bool.false_eq_true, if_false]
    split
    · exact .inl ⟨_, rfl⟩
    · exact .inr ⟨_, rfl, by simp [effectKinds, Cause.kind]⟩
  | elseEnd hk hopener =>
    obtain ⟨branch, rest, thenEnd, hb, hsame, _, hend, _⟩ := h.of_else hk
    have hc := h.current_ne_none (List.cons_ne_nil _ _)
    rw [step_inside sym index _ hc]
    simp only [effect, closeElse, popBranch, hb, hsame, hopener, if_true, ok_bind, hend]
    split
    · exact .inl ⟨_, rfl⟩
    · exact .inr ⟨_, rfl, by simp [effectKinds, Cause.kind]⟩
  | bind hin => exact fair_of_bind (h.current_ne_none hin) hs
  | @unbind b blocks count loc hk =>
    obtain ⟨frames, rest, hbindings, hlen, _⟩ := h.of_let hk
    have hc := h.current_ne_none (List.cons_ne_nil _ _)
    have hcount : count ≤ st.bindings.length := by simp [hbindings, hlen]
    exact .inl ⟨_, (Move.unbind hc hcount).step_eq hs rfl⟩

/-- A check of operations that are properly nested and refer to what is declared goes through, or
fails for an effect on the stack. At the end the blocks are still in step. -/
theorem run_of_nestsAll {ops : List Op} (hsym : sym.WellFormed)
    (hnests : NestsAll index ops blocks after) (hvalid : ∀ op ∈ ops, op.kind.Valid sym)
    (h : Aligned st.current blocks st.bindings st.branches) (htyped : st.Typed sym.structs.length)
    (hs : st.stack.Settled) :
    (∃ last, (run sym st index ops).2 = .ok last ∧
      Aligned last.current after last.bindings last.branches) ∨
    ∃ f, (run sym st index ops).2 = .error f ∧ f.cause.kind ∈ effectKinds := by
  induction hnests generalizing st with
  | nil => exact .inl ⟨st, rfl, h⟩
  | @cons index op ops blocks mid after hop hrest ih =>
    obtain ⟨hvalid_op, hvalid⟩ := List.forall_mem_cons.mp hvalid
    rcases fair_of_nests hop hvalid_op h htyped hs with ⟨next, hstep⟩ | ⟨f, hstep, hkind⟩
    · have hmove := step_move hs hstep
      rw [run_cons_ok hstep]
      exact ih hvalid (hmove.aligned hop h) (hmove.typed hsym hvalid_op hop h htyped)
        (hmove.settled hs)
    · exact .inr ⟨f, by rw [run_cons_error hstep], hkind⟩

end CheckState

/-- Checking a program that resolution accepts succeeds, or fails for an effect on the stack: too
few values, a wrong type, an unknown member, or a block or procedure that leaves other types than it
has to. No fault is about the nesting of blocks or about a reference to nothing. -/
theorem checking_fails_for_effects_only (file source : String) (p : Program)
    (h : Program.ofSource file source = .ok p) :
    (∃ c, Checked.ofProgram p = .ok c) ∨
      ∃ f, Checked.ofProgram p = .error f ∧
        f.cause.kind ∈ [CauseKind.arity, .typeMismatch, .unknownMember, .contract] := by
  have hsound := Program.sound_of_source h
  have htyped : ({} : CheckState).Typed p.symbols.structs.length := ⟨by simp, by simp, by simp⟩
  rcases CheckState.run_of_nestsAll hsound.tables hsound.nested hsound.ops .outside htyped
    (Int.le_refl 0) with ⟨last, hrun, haligned⟩ | ⟨f, hrun, hkind⟩
  · obtain ⟨hnone, _, _⟩ := haligned.of_nil
    have hcheck : (checkOps p.symbols p.ops).2 = .ok last.contracts := by
      change (CheckState.run p.symbols {} 0 p.ops).2.bind _ = _
      rw [hrun]
      simp [Except.bind, CheckState.finish, hnone]
    refine .inl ⟨⟨{ p with ops := (checkOps p.symbols p.ops).1 }, last.contracts⟩, ?_⟩
    change (checkOps p.symbols p.ops).2.map _ = _
    rw [hcheck]
    rfl
  · refine .inr ⟨f, ?_, hkind⟩
    change ((CheckState.run p.symbols {} 0 p.ops).2.bind _).map _ = _
    rw [hrun]
    rfl

def nestedText : String :=
  "f :: int bool -> int let x b : b if x else x 0 > if x let y : y 1 + end else 0 end end end end"

theorem checking_nested_text_fails_for_effects_only :
    ∃ p, Program.ofSource "nested" nestedText = .ok p ∧
      ((∃ c, Checked.ofProgram p = .ok c) ∨
        ∃ f, Checked.ofProgram p = .error f ∧
          f.cause.kind ∈ [CauseKind.arity, .typeMismatch, .unknownMember, .contract]) := by
  have hok : (Program.ofSource "nested" nestedText).toOption.isSome := by decide +kernel
  cases h : Program.ofSource "nested" nestedText with
  | error f =>
    rw [h] at hok
    cases hok
  | ok p => exact ⟨p, rfl, checking_fails_for_effects_only "nested" nestedText p h⟩

end StackEffect
