import Mathlib.Data.Nat.Init
import StackEffect.Proofs.Contracts

/-! # Blocks on other stacks

A block reaches down to the depth that its contract says and never sees what lies below. So it can
be checked on any stack that has the same types above that depth, with the same outcome, and it
fails for want of values on a stack that does not reach so deep.
-/

namespace StackEffect

/-- Two stacks, top first, that agree in their types above the ground that each of them stands on.
-/
def Over (ground ground' frames frames' : List Frame) : Prop :=
  ∃ above above', frames = above ++ ground ∧ frames' = above' ++ ground' ∧
    above'.map (·.ty) = above.map (·.ty)

namespace Over

variable {ground ground' frames frames' others others' args rest : List Frame}

theorem push (h : Over ground ground' frames frames') {res res' : List Frame}
    (hres : res'.map (·.ty) = res.map (·.ty)) :
    Over ground ground' (res ++ frames) (res' ++ frames') := by
  obtain ⟨above, above', rfl, rfl, htypes⟩ := h
  exact ⟨res ++ above, res' ++ above', by simp, by simp, by simp [hres, htypes]⟩

/-- Values above the ground of one stack have counterparts on the other. -/
theorem pop (h : Over ground ground' frames frames') (hf : frames = args.reverse ++ rest)
    (hfit : ground.length + args.length ≤ frames.length) :
    ∃ args' rest' : List Frame, frames' = args'.reverse ++ rest' ∧
      args'.map (·.ty) = args.map (·.ty) ∧ Over ground ground' rest rest' := by
  obtain ⟨above, above', rfl, rfl, htypes⟩ := h
  have hle : args.reverse.length ≤ above.length := by
    simp only [List.length_append, List.length_reverse] at hfit ⊢
    omega
  obtain ⟨between, rfl⟩ : args.reverse <+: above :=
    List.prefix_of_prefix_length_le ⟨rest, hf.symm⟩ (List.prefix_append above ground) hle
  rw [List.map_append] at htypes
  obtain ⟨taken, left, rfl, htaken, hleft⟩ := List.map_eq_append_iff.mp htypes
  obtain rfl : rest = between ++ ground := by
    rw [List.append_assoc] at hf
    exact (List.append_cancel_left hf).symm
  refine ⟨taken.reverse, left ++ ground', by simp, ?_, between, left, rfl, rfl, hleft⟩
  rw [List.map_reverse, htaken, List.map_reverse, List.reverse_reverse]

/-- Equal types on one side are equal types on the other. -/
theorem types_eq (h : Over ground ground' frames frames') (h' : Over ground ground' others others')
    (heq : frames.map (·.ty) = others.map (·.ty)) : frames'.map (·.ty) = others'.map (·.ty) := by
  obtain ⟨above, above', rfl, rfl, habove⟩ := h
  obtain ⟨upper, upper', rfl, rfl, hupper⟩ := h'
  rw [List.map_append, List.map_append] at heq ⊢
  rw [habove, hupper, List.append_cancel_right heq]

theorem length_eq (h : Over ground ground' frames frames') :
    frames'.length + ground.length = frames.length + ground'.length := by
  obtain ⟨above, above', rfl, rfl, htypes⟩ := h
  have hlen : above'.length = above.length := by simpa using congrArg List.length htypes
  simp only [List.length_append]
  omega

theorem drop_eq_ground (h : Over ground ground' frames frames') :
    frames.drop (frames.length - ground.length) = ground := by
  obtain ⟨above, above', rfl, rfl, htypes⟩ := h
  rw [List.length_append, Nat.add_sub_cancel, List.drop_left]

theorem ground_le (h : Over ground ground' frames frames') : ground.length ≤ frames.length := by
  obtain ⟨above, above', rfl, rfl, htypes⟩ := h
  simp

end Over

/-- The types of the `count` top values, bottom first. -/
def TypeStack.top (s : TypeStack) (count : Nat) : List Ty :=
  ((s.frames.take count).map (·.ty)).reverse

theorem Over.types_eq_append {ground : List Frame} {s s' : TypeStack} {below : List Ty}
    {loc : Location} (h : Over ground (TypeStack.seed below loc).frames s.frames s'.frames) :
    s'.types = below ++ s.top (s.frames.length - ground.length) := by
  obtain ⟨above, above', habove, habove', htypes⟩ := h
  have htop : s.top (s.frames.length - ground.length) = (above.map (·.ty)).reverse := by
    rw [TypeStack.top, habove, List.length_append, Nat.add_sub_cancel, List.take_left]
  rw [TypeStack.types, habove', List.map_append, List.reverse_append, htypes, htop]
  simp [TypeStack.seed, Function.comp_def]

namespace CheckState

def openers (st : CheckState) : List Nat :=
  st.branches.map (·.opener)

variable {sym : Symbols} {ops : List Op} {contracts : ContractTable} {op : Op}
  {st next : CheckState} {i k m q : Nat}

/-- An operation may open a branch or close the innermost one. -/
theorem Move.openers_sublist (h : Move sym m st op next) :
    next.openers.Sublist (m :: st.openers) := by
  cases h with
  | ifBegin => exact List.Sublist.refl _
  | ifElse hc hb => simp [openers, hb]
  | ifEnd hc hb | elseEnd hc hb =>
    rw [openers, openers, hb]
    exact (List.sublist_cons_self _ _).trans (List.sublist_cons_self _ _)
  | plain | bind | unbind | procBegin | procEnd => exact List.sublist_cons_self _ _

/-- Only the contract of an open branch is recorded, or that of a procedure under its own index. -/
theorem Move.find?_eq (h : Move sym m st op next) (hclosed : q ∉ st.openers) (hne : q ≠ m) :
    next.contracts.find? q = st.contracts.find? q := by
  cases h with
  | @ifEnd loc b branches hc hb | @elseEnd loc b branches thenEnd hc hb =>
    have hq : q ≠ b.opener := fun heq => hclosed (by simp [openers, hb, heq])
    exact ContractTable.find?_insert_of_ne _ _ _ hq
  | procBegin => exact ContractTable.find?_insert_of_ne _ _ _ hne
  | plain | ifBegin | ifElse | bind | unbind | procEnd => rfl

/-- The branches under way were opened one after the other, all of them before operation `m`. -/
theorem Accepts.openers_descending (h : Accepts sym ops contracts) (hm : m ≤ ops.length) :
    (m :: (before sym ops m).openers).Pairwise (· > ·) := by
  refine (h.induct (P := fun m st => (m :: st.openers).Pairwise (· > ·)) (by simp [openers])
    (fun m op hop _ hP hmove => ?_) m hm).2
  have hsub := hmove.openers_sublist
  refine List.Pairwise.cons (fun q hq => ?_) (hP.sublist hsub)
  rcases List.mem_cons.mp (hsub.subset hq) with rfl | hq
  · exact Nat.lt_succ_self q
  · exact Nat.lt_succ_of_lt (List.rel_of_pairwise_cons hP hq)

/-- A branch that is closed stays closed. -/
theorem Accepts.closed_later (h : Accepts sym ops contracts) (hq : q < m) (hmk : m ≤ k)
    (hk : k ≤ ops.length) (hclosed : q ∉ (before sym ops m).openers) :
    q ∉ (before sym ops k).openers := by
  induction k, hmk using Nat.le_induction with
  | base => exact hclosed
  | succ k hmk ih =>
    have hmove := h.move (List.getElem?_eq_getElem hk)
    intro hmem
    rcases List.mem_cons.mp (hmove.openers_sublist.subset hmem) with heq | hmem
    · omega
    · exact ih (by omega) hmem

/-- No contract is recorded yet for operations still to come. -/
theorem Accepts.find?_eq_none (h : Accepts sym ops contracts) (hm : m ≤ ops.length) (hq : m ≤ q) :
    (before sym ops m).contracts.find? q = none := by
  refine (h.induct (P := fun m st => ∀ q, m ≤ q → st.contracts.find? q = none) (fun _ _ => rfl)
    (fun m op hop _ hP hmove => ?_) m hm).2 q hq
  intro q hq
  have hlt : m ≤ ops.length := Nat.le_of_lt (List.getElem?_eq_some_iff.mp hop).1
  have hclosed : q ∉ (before sym ops m).openers := fun hmem => by
    have := List.rel_of_pairwise_cons (h.openers_descending hlt) hmem
    omega
  rw [hmove.find?_eq hclosed (by omega)]
  exact hP q (by omega)

/-- The contract of a branch that is closed is not recorded again. -/
theorem Accepts.find?_later (h : Accepts sym ops contracts) (hq : q < m) (hm : m ≤ ops.length)
    (hclosed : q ∉ (before sym ops m).openers) :
    contracts.find? q = (before sym ops m).contracts.find? q := by
  have hfind : ∀ k, m ≤ k → k ≤ ops.length →
      (before sym ops k).contracts.find? q = (before sym ops m).contracts.find? q := by
    intro k hmk
    induction k, hmk using Nat.le_induction with
    | base => exact fun _ => rfl
    | succ k hmk ih =>
      intro hk
      have hmove := h.move (List.getElem?_eq_getElem hk)
      rw [hmove.find?_eq (h.closed_later hq hmk (by omega) hclosed) (by omega)]
      exact ih (by omega)
  rw [← hfind ops.length hm (Nat.le_refl _), h.ended.2]

/-- Ends of first branches that were reached with stacks alike above the ground. -/
structure SameEnd (ground ground' : List Frame) (e e' : BranchEnd) : Prop where
  types : ∃ frames frames', Over ground ground' frames frames' ∧
    e.types = (frames.map (·.ty)).reverse ∧ e'.types = (frames'.map (·.ty)).reverse
  height : e'.height = e.height
  low : e'.low = e.low

/-- Branches that were entered with stacks alike above the ground. -/
structure SameBranch (ground ground' : List Frame) (b b' : Branch) : Prop where
  opener : b'.opener = b.opener
  entry : Over ground ground' b.entry.frames b'.entry.frames
  bound : b'.bindings.map (·.ty) = b.bindings.map (·.ty)
  thenEnd : Option.Rel (SameEnd ground ground') b.thenEnd b'.thenEnd

/-- The branches under way inside a block, with the branches `outer` around it and none around its
copy. The counters agree in all regions of the block. -/
inductive Nested (ground ground' : List Frame) (outer : List Branch) :
    TypeStack → List Branch → TypeStack → List Branch → Prop
  | around (stack stack' : TypeStack) : Nested ground ground' outer stack outer stack' []
  | inside {stack stack' : TypeStack} {b b' : Branch} {branches branches' : List Branch}
      (hheight : stack'.height = stack.height) (hlow : stack'.low = stack.low)
      (hb : SameBranch ground ground' b b')
      (hrest : Nested ground ground' outer b.entry branches b'.entry branches') :
      Nested ground ground' outer stack (b :: branches) stack' (b' :: branches')

/-- A state of the pass inside the block that operation `i` opens, and the state of a check of that
block alone on another ground. -/
structure Framed (ground ground' : List Frame) (i : Nat) (outer : List Branch)
    (st st' : CheckState) : Prop where
  frames : Over ground ground' st.stack.frames st'.stack.frames
  bound : st'.bound = st.bound
  inside : st.current ≠ none
  current : st'.current = st.current
  contracts : ∀ q, i ≤ q → st'.contracts.find? q = st.contracts.find? q
  nested : Nested ground ground' outer st.stack st.branches st'.stack st'.branches

variable {ground ground' : List Frame} {outer : List Branch} {st' : CheckState} {b b' : Branch}

theorem SameBranch.thenEnd_eq_none (h : SameBranch ground ground' b b') (hend : b.thenEnd = none) :
    b'.thenEnd = none := by
  have hrel := h.thenEnd
  rw [hend] at hrel
  generalize b'.thenEnd = thenEnd' at hrel ⊢
  cases hrel
  rfl

theorem SameBranch.thenEnd_eq_some (h : SameBranch ground ground' b b') {thenEnd : BranchEnd}
    (hend : b.thenEnd = some thenEnd) :
    ∃ thenEnd', b'.thenEnd = some thenEnd' ∧ SameEnd ground ground' thenEnd thenEnd' := by
  have hrel := h.thenEnd
  rw [hend] at hrel
  generalize b'.thenEnd = thenEnd' at hrel ⊢
  cases hrel with
  | some hsame => exact ⟨_, rfl, hsame⟩

/-- The counters of the region under way may change on both sides in the same way. -/
theorem Nested.follow {stack stack' after after' : TypeStack} {branches branches' : List Branch}
    (h : Nested ground ground' outer stack branches stack' branches')
    (hheight : stack'.height = stack.height → after'.height = after.height)
    (hlow : stack'.height = stack.height → stack'.low = stack.low → after'.low = after.low) :
    Nested ground ground' outer after branches after' branches' := by
  cases h with
  | around => exact .around after after'
  | inside hh hl hb hrest => exact .inside (hheight hh) (hlow hh hl) hb hrest

theorem over_replace {args rest res args' rest' res' : List Frame}
    (hf : st.stack.frames = args.reverse ++ rest)
    (hf' : st'.stack.frames = args'.reverse ++ rest') (hrest : Over ground ground' rest rest')
    (hres : res'.map (·.ty) = res.map (·.ty)) :
    Over ground ground' (st.replace args.length res).stack.frames
      (st'.replace args'.length res').stack.frames := by
  have hdrop : st.stack.frames.drop args.length = rest := by
    rw [hf, List.drop_left' args.length_reverse]
  have hdrop' : st'.stack.frames.drop args'.length = rest' := by
    rw [hf', List.drop_left' args'.length_reverse]
  simp only [CheckState.replace, TypeStack.pushAll_eq, TypeStack.popped, hdrop, hdrop']
  exact hrest.push (by rw [List.map_reverse, hres, List.map_reverse])

/-- The offset that is filled in depends on the types of the operands only. -/
theorem annotate_eq {args rest args' rest' : List Frame}
    (hf : st.stack.frames = args.reverse ++ rest)
    (hf' : st'.stack.frames = args'.reverse ++ rest') (hlen : args.length = op.kind.operands sym)
    (htypes : args'.map (·.ty) = args.map (·.ty)) : st'.annotate sym op = st.annotate sym op := by
  obtain ⟨kind, loc⟩ := op
  cases kind with
  | member access name offset =>
    obtain ⟨f, rfl⟩ := List.length_eq_one_iff.mp hlen
    obtain ⟨f', rfl⟩ : ∃ f', args' = [f'] := by
      refine List.length_eq_one_iff.mp ?_
      simpa using congrArg List.length htypes
    have hty : f'.ty = f.ty := by simpa using htypes
    simp [annotate, TypeStack.peek?, hf, hf', hty]
  | _ => rfl

theorem Nested.exists_cons {stack stack' : TypeStack} {branches branches' : List Branch}
    (h : Nested ground ground' outer stack branches stack' branches') (hopen : branches ≠ outer) :
    ∃ b rest b' rest', branches = b :: rest ∧ branches' = b' :: rest' ∧
      stack'.height = stack.height ∧ stack'.low = stack.low ∧ SameBranch ground ground' b b' ∧
      Nested ground ground' outer b.entry rest b'.entry rest' := by
  cases h with
  | around => exact absurd rfl hopen
  | inside hheight hlow hb hrest => exact ⟨_, _, _, _, rfl, rfl, hheight, hlow, hb, hrest⟩

/-- Recording the same contract on both sides keeps what the tables say of the block. -/
theorem find?_insert_congr {table table' : ContractTable} {c : BlockContract} {key : Nat}
    (h : table'.find? q = table.find? q) :
    (ContractTable.insert key c table').find? q = (ContractTable.insert key c table).find? q := by
  by_cases hkey : q = key
  · rw [hkey, ContractTable.find?_insert_self, ContractTable.find?_insert_self]
  · rw [ContractTable.find?_insert_of_ne _ _ _ hkey, ContractTable.find?_insert_of_ne _ _ _ hkey, h]

/-- A block is closed on both sides with the same contract. -/
theorem Framed.close {branches branches' : List Branch} {ins outs : Nat}
    (h : Framed ground ground' i outer st st') (hb : SameBranch ground ground' b b')
    (hrest : Nested ground ground' outer b.entry branches b'.entry branches') :
    Framed ground ground' i outer
      (({ st with branches := branches } : CheckState).closeBranch b ins outs)
      (({ st' with branches := branches' } : CheckState).closeBranch b' ins outs) where
  frames := h.frames
  bound := h.bound
  inside := h.inside
  current := h.current
  contracts q hq := by
    simp only [closeBranch, hb.opener]
    exact find?_insert_congr (h.contracts q hq)
  nested := by
    refine hrest.follow (fun hheight => ?_) (fun hheight hlow => ?_) <;>
      simp only [closeBranch, TypeStack.absorb, TypeStack.restoreCounters] <;> omega

/-- An operation that reaches no deeper than the ground has the same effect on both sides. -/
theorem Framed.step (h : Framed ground ground' i outer st st') (hopen : st.branches ≠ outer)
    (hs : st.stack.Settled) (hmove : Move sym m st op next)
    (hfit : ground.length + op.kind.operands sym ≤ st.size) :
    ∃ next', st'.step sym m op = .ok next' ∧ st'.annotate sym op = st.annotate sym op ∧
      Framed ground ground' i outer next next' := by
  obtain ⟨hover, bound, inside, current, contracts, nested⟩ := id h
  have hc' : st'.current ≠ none := by rwa [current]
  obtain ⟨top, lower, top', lower', htop, htop', hheight, hlow, hsame, hlower⟩ :=
    nested.exists_cons hopen
  have hs' : st'.stack.Settled := by rwa [TypeStack.Settled, hheight, hlow]
  cases hmove with
  | @plain kind loc args rest res hk hc hf hlen hout =>
    obtain ⟨args', rest', hf', htypes, hrest⟩ := hover.pop hf (by rw [hlen]; exact hfit)
    have hlen' : args'.length = args.length := by simpa using congrArg List.length htypes
    have hout' : kind.outcome? sym st'.bound (args'.map (·.ty)) = some (res.map (·.ty)) := by
      rw [bound, htypes, hout]
    obtain ⟨res', hres, heffect⟩ := effect_ok m loc hk hs' hf' (hlen'.trans hlen) hout'
    have hcount : res'.length = res.length := by simpa using congrArg List.length hres
    refine ⟨_, by rw [step_inside sym m _ hc', heffect], annotate_eq hf hf' hlen htypes,
      over_replace hf hf' hrest hres, bound, inside, current, contracts, ?_⟩
    refine nested.follow (fun hheight => ?_) (fun hheight hlow => ?_) <;>
      simp only [replace, TypeStack.pushAll_eq, TypeStack.popped] <;> omega
  | @ifBegin loc f rest hc hf hty =>
    have hargs : st.stack.frames = [f].reverse ++ rest := hf
    obtain ⟨args', rest', hf', htypes, hrest⟩ := hover.pop hargs hfit
    obtain ⟨f', rfl⟩ : ∃ f', args' = [f'] := by
      refine List.length_eq_one_iff.mp ?_
      simpa using congrArg List.length htypes
    have hty' : f'.ty = .bool := by simpa [hty] using htypes
    have hmove' : Move sym m st' ⟨.ifBegin, loc⟩ _ := .ifBegin hc' hf' hty'
    refine ⟨_, hmove'.step_eq hs' rfl, rfl, ?_, bound, inside, current, contracts, ?_⟩
    · simpa [TypeStack.resetCounters, TypeStack.popped, hf, hf'] using hrest
    · refine .inside rfl rfl ⟨rfl, ?_, bound, .none⟩ (nested.follow (fun hheight => ?_)
        (fun hheight hlow => ?_))
      · simpa [TypeStack.popped, hf, hf'] using hrest
      · simp only [TypeStack.popped, hheight]
      · simp only [TypeStack.popped, hheight, hlow]
  | @ifElse loc b branches hc hb hend thenEnd hthen =>
    obtain ⟨rfl, rfl⟩ : b = top ∧ branches = lower := by simpa [htop] using hb.symm
    have hend' := hsame.thenEnd_eq_none hend
    have hmove' : Move sym m st' ⟨.ifElse top'.opener, loc⟩ _ := .ifElse hc' htop' hend' rfl
    rw [hsame.opener] at hmove'
    refine ⟨_, hmove'.step_eq hs' rfl, rfl, hsame.entry, hsame.bound, inside, current, contracts,
      ?_⟩
    refine .inside rfl rfl ⟨rfl, hsame.entry, hsame.bound, .some ?_⟩ hlower
    rw [hthen]
    exact ⟨⟨_, _, hover, rfl, rfl⟩, hheight, hlow⟩
  | @ifEnd loc b branches hc hb hend htypes =>
    obtain ⟨rfl, rfl⟩ : b = top ∧ branches = lower := by simpa [htop] using hb.symm
    have hend' := hsame.thenEnd_eq_none hend
    have htypes' : top'.entry.types = st'.stack.types := by
      simp only [TypeStack.types, List.reverse_inj] at htypes ⊢
      exact hsame.entry.types_eq hover htypes
    have hmove' : Move sym m st' ⟨.ifEnd top'.opener, loc⟩ _ := .ifEnd hc' htop' hend' htypes'
    rw [hsame.opener, hheight, hlow] at hmove'
    exact ⟨_, hmove'.step_eq hs' rfl, rfl, h.close hsame hlower⟩
  | @elseEnd loc b branches thenEnd hc hb hend htypes =>
    obtain ⟨rfl, rfl⟩ : b = top ∧ branches = lower := by simpa [htop] using hb.symm
    obtain ⟨thenEnd', hend', ⟨frames, frames', hframes, hfirst, hfirst'⟩, hheight', hlow'⟩ :=
      hsame.thenEnd_eq_some hend
    have htypes' : thenEnd'.types = st'.stack.types := by
      rw [hfirst, TypeStack.types, List.reverse_inj] at htypes
      rw [hfirst', TypeStack.types, hframes.types_eq hover htypes]
    have hmove' : Move sym m st' ⟨.elseEnd top'.opener, loc⟩ _ := .elseEnd hc' htop' hend' htypes'
    rw [hsame.opener, hheight, hlow, hheight', hlow'] at hmove'
    exact ⟨_, hmove'.step_eq hs' rfl, rfl, h.close hsame hlower⟩
  | @bind loc args rest hc hf =>
    obtain ⟨args', rest', hf', htypes, hrest⟩ := hover.pop hf hfit
    have hlen : args'.length = args.length := by simpa using congrArg List.length htypes
    have hmove' : Move sym m st' ⟨.bind args'.length, loc⟩ _ := .bind hc' hf'
    have hpopped : Over ground ground' (st.replace args.length []).stack.frames
        (st'.replace args'.length []).stack.frames := over_replace hf hf' hrest rfl
    rw [hlen] at hmove' hpopped
    refine ⟨_, hmove'.step_eq hs' rfl, rfl, hpopped, ?_, inside, current, contracts, ?_⟩
    · simp only [CheckState.bound, List.map_append, List.map_reverse, htypes] at bound ⊢
      rw [bound]
    · refine nested.follow (fun hheight => ?_) (fun hheight hlow => ?_)
      · simp only [TypeStack.popped, hheight]
      · simp only [TypeStack.popped, hheight, hlow]
  | @unbind loc count hc hcount =>
    have hbindings : st'.bindings.length = st.bindings.length := by
      simpa [CheckState.bound] using congrArg List.length bound
    have hmove' : Move sym m st' ⟨.unbind count, loc⟩ _ := .unbind hc' (by omega)
    refine ⟨_, hmove'.step_eq hs' rfl, rfl, hover, ?_, inside, current, contracts, nested⟩
    simp only [CheckState.bound, List.map_drop] at bound ⊢
    rw [bound]
  | procBegin hc hp => exact absurd hc inside
  | procEnd hc hp hb htypes => simp [hb] at htop

/-- An operation that reaches below a ground that is missing finds too few values. -/
theorem Framed.short (h : Framed ground [] i outer st st') (hopen : st.branches ≠ outer)
    (hs : st.stack.Settled) (hmove : Move sym m st op next)
    (hshort : st.size < ground.length + op.kind.operands sym) :
    ∃ f, st'.step sym m op = .error f ∧ f.cause.kind = .arity := by
  have hc' : st'.current ≠ none := by rw [h.current]; exact h.inside
  obtain ⟨_, _, _, _, _, _, hheight, hlow, _, _⟩ := h.nested.exists_cons hopen
  have hs' : st'.stack.Settled := by rwa [TypeStack.Settled, hheight, hlow]
  have hlt : st'.stack.frames.length < op.kind.operands sym := by
    have hlen := h.frames.length_eq
    unfold size at hshort
    simp only [List.length_nil, Nat.add_zero] at hlen
    omega
  rw [step_inside sym m op hc']
  cases hmove with
  | @plain kind loc args rest res hk hc hf hlen hout =>
    obtain ⟨f, hf, harity⟩ := effect_short m loc hk hs' hlt
    refine ⟨f, hf, harity ?_⟩
    rintro ref ty rfl
    obtain ⟨v, hv, _⟩ := Option.bind_eq_some_iff.mp hout
    simp [hv]
  | ifBegin =>
    exact ⟨_, by simp only [effect, openIf, popOne_short hlt, error_bind]; rfl, rfl⟩
  | @bind loc args rest hc hf =>
    have hfew : st'.stack.frames.length < args.length := hlt
    exact ⟨_, by simp only [effect, CheckState.bind, pop_short hs' hfew, error_bind]; rfl, rfl⟩
  | ifElse | ifEnd | elseEnd | unbind | procBegin | procEnd => exact absurd hlt (Nat.not_lt_zero _)

/-- The pass fills in each operation in the state before it. -/
theorem Accepts.annotated (h : Accepts sym ops contracts) (hop : ops[m]? = some op) :
    (checkOps sym ops).1[m]? = some ((before sym ops m).annotate sym op) := by
  obtain ⟨hm, hget⟩ := List.getElem?_eq_some_iff.mp hop
  have htake : (ops.take m).length = m := by
    rw [List.length_take, Nat.min_eq_left (Nat.le_of_lt hm)]
  have hops : ops.take m ++ op :: ops.drop (m + 1) = ops := by
    rw [← hget, ← List.drop_eq_getElem_cons hm, List.take_append_drop]
  have hrun : run sym {} 0 (ops.take m ++ op :: ops.drop (m + 1)) = _ :=
    run_append_ok (h.run_take m)
  rw [hops, htake, Nat.zero_add, run_cons_ok (h.step hop)] at hrun
  change (run sym {} 0 ops).1[m]? = _
  rw [hrun, List.getElem?_append_right (Nat.le_of_eq (by rw [run_length, htake])), run_length,
    htake, Nat.sub_self, List.getElem?_cons_zero]

theorem take_drop_succ {l : List Op} (h : l[m]? = some op) (n : Nat) :
    (l.drop m).take (n + 1) = op :: (l.drop (m + 1)).take n := by
  obtain ⟨hlt, rfl⟩ := List.getElem?_eq_some_iff.mp h
  rw [List.drop_eq_getElem_cons hlt, List.take_succ_cons]

/-- The operation at `m` takes no value of the ground. -/
def Fits (sym : Symbols) (ops : List Op) (ground : List Frame) (m : Nat) : Prop :=
  ∀ op, ops[m]? = some op → ground.length + op.kind.operands sym ≤ (before sym ops m).size

/-- Operations of a block that keep above the ground are checked on another ground as they were in
the pass. -/
theorem Accepts.follow (h : Accepts sym ops contracts) {n : Nat} (hn : m + n ≤ ops.length)
    (hopen : ∀ q, m ≤ q → q < m + n → (before sym ops q).branches ≠ outer)
    (hfits : ∀ q, m ≤ q → q < m + n → Fits sym ops ground q)
    (hst : Framed ground ground' i outer (before sym ops m) st') :
    ∃ last, run sym st' m ((ops.drop m).take n) = (((checkOps sym ops).1.drop m).take n, .ok last) ∧
      Framed ground ground' i outer (before sym ops (m + n)) last := by
  induction n generalizing m st' with
  | zero => exact ⟨st', by simp [run], hst⟩
  | succ n ih =>
    have hop : ops[m]? = some ops[m] := List.getElem?_eq_getElem (by omega)
    obtain ⟨next', hstep, hannotate, hnext⟩ := hst.step (hopen m (by omega) (by omega))
      (h.settled (by omega)) (h.move hop) (hfits m (by omega) (by omega) _ hop)
    obtain ⟨last, hrun, hlast⟩ := ih (by omega) (fun q hq hqn => hopen q (by omega) (by omega))
      (fun q hq hqn => hfits q (by omega) (by omega)) hnext
    refine ⟨last, ?_, by rwa [Nat.add_right_comm, Nat.add_assoc] at hlast⟩
    rw [take_drop_succ hop, take_drop_succ (h.annotated hop), run_cons_ok hstep, hrun, hannotate]

/-- If an operation of the block reaches below a ground that is missing, the check fails for want of
values. -/
theorem Accepts.follow_short (h : Accepts sym ops contracts) {n : Nat} (hn : m + n ≤ ops.length)
    (hopen : ∀ q, m ≤ q → q < m + n → (before sym ops q).branches ≠ outer)
    (hshort : ∃ q, m ≤ q ∧ q < m + n ∧ ¬ Fits sym ops ground q)
    (hst : Framed ground [] i outer (before sym ops m) st') :
    ∃ f, (run sym st' m ((ops.drop m).take n)).2 = .error f ∧ f.cause.kind = .arity := by
  induction n generalizing m st' with
  | zero =>
    obtain ⟨q, hmq, hqm, _⟩ := hshort
    omega
  | succ n ih =>
    have hop : ops[m]? = some ops[m] := List.getElem?_eq_getElem (by omega)
    have hopen_m := hopen m (by omega) (by omega)
    by_cases hfits : Fits sym ops ground m
    · obtain ⟨next', hstep, _, hnext⟩ := hst.step hopen_m (h.settled (by omega)) (h.move hop)
        (hfits _ hop)
      obtain ⟨q, hmq, hqn, hq⟩ := hshort
      have hne : q ≠ m := fun heq => hq (heq ▸ hfits)
      rw [take_drop_succ hop, run_cons_ok hstep]
      exact ih (by omega) (fun q hq hqn => hopen q (by omega) (by omega))
        ⟨q, by omega, by omega, hq⟩ hnext
    · have hlt : (before sym ops m).size < ground.length + ops[m].kind.operands sym := by
        by_contra hge
        refine hfits fun op hop' => ?_
        obtain rfl : ops[m] = op := Option.some.inj (hop.symm.trans hop')
        omega
      obtain ⟨f, hstep, harity⟩ := hst.short hopen_m (h.settled (by omega)) (h.move hop) hlt
      refine ⟨f, ?_, harity⟩
      rw [take_drop_succ hop]
      rw [run_cons_error hstep]

theorem Move.operands_le (h : Move sym m st op next) : op.kind.operands sym ≤ st.size := by
  cases h with
  | plain hk hc hf hlen hout => simp [size, hf, ← hlen]
  | ifBegin hc hf hty => simp [OpKind.operands, size, hf]
  | bind hc hf => simp [OpKind.operands, size, hf]
  | ifElse | ifEnd | elseEnd | unbind | procBegin | procEnd => exact Nat.zero_le _

def Closes (ops : List Op) (i k : Nat) : Prop :=
  (ops[k]?).map (·.kind) = some (.ifEnd i) ∨ (ops[k]?).map (·.kind) = some (.elseEnd i)

/-- A block is closed while it is the innermost one. -/
theorem Accepts.closes (h : Accepts sym ops contracts) (hk : Closes ops i k) :
    k < ops.length ∧ (before sym ops k).openers = i :: (before sym ops (k + 1)).openers ∧
      (before sym ops (k + 1)).size = (before sym ops k).size := by
  obtain ⟨op, b, hop, hclosing⟩ : ∃ op b, ops[k]? = some op ∧
      Closing i b (before sym ops k) (before sym ops (k + 1)) := by
    rcases hk with hk | hk
    · obtain ⟨op, hop, hkind⟩ := Option.map_eq_some_iff.mp hk
      obtain ⟨b, hclosing, _⟩ := (h.move hop).of_ifEnd hkind
      exact ⟨op, b, hop, hclosing⟩
    · obtain ⟨op, hop, hkind⟩ := Option.map_eq_some_iff.mp hk
      obtain ⟨b, _, hclosing, _⟩ := (h.move hop).of_elseEnd hkind
      exact ⟨op, b, hop, hclosing⟩
  refine ⟨(List.getElem?_eq_some_iff.mp hop).1, ?_, by rw [size, hclosing.frames, size]⟩
  simp [openers, hclosing.branches, hclosing.opener]

/-- The contract of a closed block takes as many values as its operations dip at the lowest. -/
theorem Accepts.exists_closes (h : Accepts sym ops contracts)
    (hif : (ops[i]?).map (·.kind) = some .ifBegin) :
    ∃ k c, i < k ∧ Closes ops i k ∧ contracts.find? i = some c ∧
      c.ins ≤ (before sym ops (i + 1)).size ∧
      (c.ins : Int) = -lowest (before sym ops (i + 1)).size (lengthsIn sym ops (i + 1) (k + 1)) ∧
      (c.outs : Int) = c.ins + ((before sym ops (k + 1)).size - (before sym ops (i + 1)).size) := by
  obtain ⟨c, hc, ⟨k, _, hbare⟩ | ⟨j, k, _, helse⟩⟩ := h.recorded hif
  · have hk : Closes ops i k := .inl hbare.closed
    exact ⟨k, c, hbare.lt, hk, hc, hbare.ins_le, hbare.lowest_eq (h.closes hk).2.2, hbare.outs⟩
  · have hk : Closes ops i k := .inr helse.closed
    exact ⟨k, c, Nat.lt_trans helse.lt_middle helse.middle_lt, hk, hc, helse.ins_le,
      helse.lowest_eq (h.closes hk).2.2, helse.outs⟩

/-- While a block is open there are more branches under way than those around it. -/
theorem Accepts.branches_ne (h : Accepts sym ops contracts) (hk : Closes ops i k) (hm : i < m)
    (hmk : m ≤ k) : (before sym ops m).branches ≠ (before sym ops i).branches := by
  intro heq
  obtain ⟨hlt, hopeners, _⟩ := h.closes hk
  have hclosed : i ∉ (before sym ops m).openers := by
    rw [openers, heq]
    intro hmem
    have := List.rel_of_pairwise_cons (h.openers_descending (by omega)) hmem
    omega
  have hlater := h.closed_later hm hmk (Nat.le_of_lt hlt) hclosed
  simp [hopeners] at hlater

theorem mem_lengthsIn {n a b : Nat} :
    n ∈ lengthsIn sym ops a b ↔ ∃ m, a ≤ m ∧ m < b ∧ n ∈ lengthsAt sym ops m := by
  simp only [lengthsIn, List.mem_flatMap, List.mem_range'_1]
  constructor
  · rintro ⟨m, hm, hn⟩
    exact ⟨m, hm.1, by omega, hn⟩
  · rintro ⟨m, ha, hb, hn⟩
    exact ⟨m, by omega, hn⟩

/-- What lies below the lowest point of a block is ground for all its operations. -/
theorem Accepts.fits (h : Accepts sym ops contracts) (hm : i < m) (hmk : m ≤ k)
    (hground : (ground.length : Int) ≤ (before sym ops (i + 1)).size +
      lowest (before sym ops (i + 1)).size (lengthsIn sym ops (i + 1) (k + 1))) :
    Fits sym ops ground m := by
  intro op hop
  have hle := (h.move hop).operands_le
  have hmem : (before sym ops m).size - op.kind.operands sym ∈ lengthsIn sym ops (i + 1) (k + 1) :=
    mem_lengthsIn.mpr ⟨m, hm, by omega, by simp [lengthsAt_of sym hop]⟩
  have hlowest := lowest_le (before sym ops (i + 1)).size hmem
  omega

/-- A ground that reaches above the lowest point of a block is in the way of one of its operations.
-/
theorem Accepts.exists_not_fits (h : Accepts sym ops contracts) (hik : i < k) (hk : Closes ops i k)
    (hle : ground.length ≤ (before sym ops (i + 1)).size)
    (hground : (before sym ops (i + 1)).size +
      lowest (before sym ops (i + 1)).size (lengthsIn sym ops (i + 1) (k + 1)) < ground.length) :
    ∃ m, i + 1 ≤ m ∧ m < i + 1 + (k - i) ∧ ¬ Fits sym ops ground m := by
  by_contra hnone
  simp only [not_exists, not_and, not_not] at hnone
  obtain ⟨hlt, _, hsize⟩ := h.closes hk
  have hsizes : ∀ m, i + 1 ≤ m → m ≤ k + 1 → ground.length ≤ (before sym ops m).size := by
    intro m him hmk
    rcases Nat.lt_or_ge k m with hkm | hmk
    · obtain rfl : m = k + 1 := by omega
      have := hnone k (by omega) (by omega) _ (List.getElem?_eq_getElem hlt)
      omega
    · have := hnone m him (by omega) _ (List.getElem?_eq_getElem (by omega))
      omega
  have hbound : (ground.length : Int) - (before sym ops (i + 1)).size ≤
      lowest (before sym ops (i + 1)).size (lengthsIn sym ops (i + 1) (k + 1)) := by
    refine le_lowest (by omega) fun n hn => ?_
    obtain ⟨m, him, hmk, hn⟩ := mem_lengthsIn.mp hn
    have hop : ops[m]? = some ops[m] := List.getElem?_eq_getElem (by omega)
    have hfits := hnone m him (by omega) _ hop
    have hnext := hsizes (m + 1) (by omega) (by omega)
    rw [lengthsAt_of sym hop] at hn
    simp only [List.mem_cons, List.not_mem_nil, or_false] at hn
    omega
  omega

/-- A state with the bindings and the procedure of another one, and nothing but values of these
types on its stack. -/
def afresh (st : CheckState) (types : List Ty) (loc : Location) : CheckState :=
  { stack := .seed types loc, bindings := st.bindings, current := st.current }

theorem over_seed (stack : TypeStack) (below : List Ty) (depth : Nat) (loc : Location) :
    Over (stack.frames.drop depth) (TypeStack.seed below loc).frames stack.frames
      (TypeStack.seed (below ++ stack.top depth) loc).frames := by
  refine ⟨stack.frames.take depth, (TypeStack.seed (stack.top depth) loc).frames,
    (List.take_append_drop _ _).symm, by simp [TypeStack.seed], ?_⟩
  simp [TypeStack.seed, TypeStack.top, Function.comp_def]

/-- The check of a block on another ground begins. -/
theorem Framed.enter {loc : Location} (hmove : Move sym i st ⟨.ifBegin, loc⟩ next)
    (hcontracts : ∀ q, i ≤ q → st.contracts.find? q = none) (below : List Ty) (depth : Nat)
    (place : Location) :
    ∃ next', (next.afresh (below ++ next.stack.top depth ++ [.bool]) place).step sym i
        ⟨.ifBegin, loc⟩ = .ok next' ∧
      Framed (next.stack.frames.drop depth) (TypeStack.seed below place).frames i st.branches next
        next' := by
  have hover := over_seed next.stack below depth place
  generalize below ++ next.stack.top depth = types at hover ⊢
  have hseed : (TypeStack.seed (types ++ [.bool]) place).frames =
      ⟨.bool, place⟩ :: (TypeStack.seed types place).frames := by
    simp [TypeStack.seed]
  cases hmove with
  | plain hk => cases hk
  | @ifBegin _ f rest hc hf hty =>
    generalize hnext : CheckState.mk _ _ _ _ _ = next at hover
    have hcurrent : next.current ≠ none := by rwa [← hnext]
    have hstart : Move sym i (next.afresh (types ++ [.bool]) place) ⟨.ifBegin, loc⟩ _ :=
      .ifBegin hcurrent hseed rfl
    have hpopped : ((TypeStack.seed (types ++ [.bool]) place).popped 1).frames =
        (TypeStack.seed types place).frames := by
      rw [TypeStack.popped, hseed, List.drop_one, List.tail_cons]
    refine ⟨_, hstart.step_eq (Int.le_refl 0) rfl, ?_, rfl, hcurrent, rfl, fun q hq => ?_, ?_⟩
    · change Over _ _ _ ((TypeStack.seed (types ++ [.bool]) place).popped 1).frames
      rwa [hpopped]
    · rw [← hnext]
      exact (hcontracts q hq).symm
    · rw [← hnext] at hover ⊢
      refine .inside rfl rfl ⟨rfl, ?_, rfl, .none⟩ (.around _ _)
      change Over _ _ _ ((TypeStack.seed (types ++ [.bool]) place).popped 1).frames
      rw [hpopped]
      exact hover

def segment (ops : List Op) (i k : Nat) : List Op :=
  (ops.drop i).take (k + 1 - i)

theorem segment_eq_cons (hik : i < k) (hop : ops[i]? = some op) :
    segment ops i k = op :: (ops.drop (i + 1)).take (k - i) := by
  rw [segment, Nat.sub_add_comm (Nat.le_of_lt hik), take_drop_succ hop]

/-- The check of a block alone starts with the operation that opens it. -/
theorem Accepts.enter (h : Accepts sym ops contracts)
    (hif : (ops[i]?).map (·.kind) = some .ifBegin) (below : List Ty) (depth : Nat)
    (place : Location) :
    ∃ op start, ops[i]? = some op ∧ (checkOps sym ops).1[i]? = some op ∧
      (∀ st : CheckState, st.annotate sym op = op) ∧
      ((before sym ops (i + 1)).afresh
        (below ++ (before sym ops (i + 1)).stack.top depth ++ [.bool]) place).step sym i op =
          .ok start ∧
      Framed ((before sym ops (i + 1)).stack.frames.drop depth)
        (TypeStack.seed below place).frames i (before sym ops i).branches (before sym ops (i + 1))
        start := by
  obtain ⟨⟨kind, loc⟩, hop, rfl⟩ := Option.map_eq_some_iff.mp hif
  have hle : i ≤ ops.length := Nat.le_of_lt (List.getElem?_eq_some_iff.mp hop).1
  obtain ⟨start, hstart, hframed⟩ := Framed.enter (h.move hop) (fun q hq => h.find?_eq_none hle hq)
    below depth place
  exact ⟨_, start, hop, h.annotated hop, fun _ => rfl, hstart, hframed⟩

/-- A block whose operations keep above the ground is checked on another ground as it was in the
pass. -/
theorem Accepts.segment_framed (h : Accepts sym ops contracts)
    (hif : (ops[i]?).map (·.kind) = some .ifBegin) (hik : i < k) (hk : Closes ops i k)
    {depth : Nat} (hfits : ∀ m, i < m → m ≤ k →
      Fits sym ops ((before sym ops (i + 1)).stack.frames.drop depth) m)
    (below : List Ty) (place : Location) :
    ∃ last, run sym ((before sym ops (i + 1)).afresh
        (below ++ (before sym ops (i + 1)).stack.top depth ++ [.bool]) place) i (segment ops i k) =
          (segment (checkOps sym ops).1 i k, .ok last) ∧
      Framed ((before sym ops (i + 1)).stack.frames.drop depth)
        (TypeStack.seed below place).frames i (before sym ops i).branches (before sym ops (k + 1))
        last := by
  obtain ⟨op, start, hop, hop', hannotate, hstart, hframed⟩ := h.enter hif below depth place
  obtain ⟨hlt, _, _⟩ := h.closes hk
  obtain ⟨last, hrun, hlast⟩ := h.follow (m := i + 1) (n := k - i) (by omega)
    (fun q hq hqk => h.branches_ne hk hq (by omega)) (fun q hq hqk => hfits q hq (by omega)) hframed
  refine ⟨last, ?_, ?_⟩
  · rw [segment_eq_cons hik hop, segment_eq_cons hik hop', run_cons_ok hstart, hrun, hannotate]
  · have hend : i + 1 + (k - i) = k + 1 := by omega
    rwa [hend] at hlast

/-- A block is not checked with success on a stack that does not reach down to its lowest point. -/
theorem Accepts.segment_short (h : Accepts sym ops contracts)
    (hif : (ops[i]?).map (·.kind) = some .ifBegin) (hik : i < k) (hk : Closes ops i k) {depth : Nat}
    (hdepth : (depth : Int) <
      -lowest (before sym ops (i + 1)).size (lengthsIn sym ops (i + 1) (k + 1)))
    (hle : depth ≤ (before sym ops (i + 1)).size) (place : Location) :
    ∃ f, (run sym ((before sym ops (i + 1)).afresh
        ((before sym ops (i + 1)).stack.top depth ++ [.bool]) place) i (segment ops i k)).2 =
          .error f ∧ f.cause.kind = .arity := by
  obtain ⟨op, start, hop, _, _, hstart, hframed⟩ := h.enter hif [] depth place
  obtain ⟨hlt, _, _⟩ := h.closes hk
  have hground : ((before sym ops (i + 1)).stack.frames.drop depth).length =
      (before sym ops (i + 1)).size - depth := List.length_drop
  rw [List.nil_append] at hstart
  rw [segment_eq_cons hik hop, run_cons_ok hstart]
  exact h.follow_short (by omega) (fun q hq hqk => h.branches_ne hk hq (by omega))
    (h.exists_not_fits hik hk (by omega) (by omega)) hframed

/-- Behind a block the contracts of its own operations are final. -/
theorem Accepts.find?_behind (h : Accepts sym ops contracts) (hk : Closes ops i k) (hiq : i ≤ q)
    (hqk : q ≤ k) : contracts.find? q = (before sym ops (k + 1)).contracts.find? q := by
  obtain ⟨hlt, hopeners, _⟩ := h.closes hk
  refine h.find?_later (Nat.lt_succ_of_le hqk) hlt fun hmem => ?_
  have hdescending := h.openers_descending (Nat.le_of_lt hlt)
  rw [hopeners] at hdescending
  have hlt := List.rel_of_pairwise_cons hdescending.of_cons hmem
  omega

/-- A contract is what the block from `i` to `k` needs, when `entry` is the state behind its
condition and `exit` the one behind the block. -/
structure Exact (p : Program) (c : Checked) (i k : Nat) (contract : BlockContract)
    (entry exit : CheckState) : Prop where
  lt : i < k
  closes : Closes p.ops i k
  recorded : c.contracts.find? i = some contract
  entered : (run p.symbols {} 0 (p.ops.take (i + 1))).2 = .ok entry
  left : (run p.symbols {} 0 (p.ops.take (k + 1))).2 = .ok exit
  ins_le : contract.ins ≤ entry.size
  outs_le : contract.outs ≤ exit.size
  kept : exit.stack.frames.drop contract.outs = entry.stack.frames.drop contract.ins
  framed : ∀ below loc, ∃ last,
    run p.symbols (entry.afresh (below ++ entry.stack.top contract.ins ++ [.bool]) loc) i
        (segment p.ops i k) = (segment c.program.ops i k, .ok last) ∧
      last.stack.types = below ++ exit.stack.top contract.outs ∧
      ∀ q, i ≤ q → q ≤ k → last.contracts.find? q = c.contracts.find? q
  short : ∀ j < contract.ins, ∀ loc, ∃ f,
    (run p.symbols (entry.afresh (entry.stack.top j ++ [.bool]) loc) i (segment p.ops i k)).2 =
      .error f ∧ f.cause.kind = .arity

/-- The contract of every `if` is exactly what its block needs. What lies deeper is the same at the
exit as at the entry. Above any other values the block is checked with the same outcome, and with
fewer values than the contract takes it fails for want of them. -/
theorem contracts_are_exact (p : Program) (c : Checked) (h : Checked.ofProgram p = .ok c) (i : Nat)
    (hif : (p.ops[i]?).map (·.kind) = some .ifBegin) :
    ∃ k contract entry exit, Exact p c i k contract entry exit := by
  obtain ⟨contracts, haccept, rfl⟩ := map_eq_ok h
  replace haccept : Accepts p.symbols p.ops contracts := haccept
  obtain ⟨k, contract, hik, hk, hfind, hins_le, hins, houts⟩ := haccept.exists_closes hif
  have hground : ((before p.symbols p.ops (i + 1)).stack.frames.drop contract.ins).length =
      (before p.symbols p.ops (i + 1)).size - contract.ins := List.length_drop
  have hfits : ∀ m, i < m → m ≤ k → Fits p.symbols p.ops
      ((before p.symbols p.ops (i + 1)).stack.frames.drop contract.ins) m :=
    fun m him hmk => haccept.fits him hmk (by omega)
  have hframed := haccept.segment_framed hif hik hk hfits
  obtain ⟨_, _, hexit⟩ := hframed [] nowhere
  have hle := hexit.frames.ground_le
  have houts' : contract.outs = (before p.symbols p.ops (k + 1)).size -
      ((before p.symbols p.ops (i + 1)).stack.frames.drop contract.ins).length := by
    unfold size at *
    omega
  refine ⟨k, contract, before p.symbols p.ops (i + 1), before p.symbols p.ops (k + 1), hik, hk,
    hfind, haccept.run_take (i + 1), haccept.run_take (k + 1), hins_le, by omega, ?_,
    fun below loc => ?_, fun j hj loc => ?_⟩
  · rw [houts']
    exact hexit.frames.drop_eq_ground
  · obtain ⟨last, hrun, hlast⟩ := hframed below loc
    refine ⟨last, hrun, ?_, fun q hiq hqk => ?_⟩
    · rw [houts']
      exact hlast.frames.types_eq_append
    · rw [hlast.contracts q hiq, haccept.find?_behind hk hiq hqk]
  · exact haccept.segment_short hif hik hk (by omega) (by omega) loc

def nestedProgram : Program :=
  ⟨{}, nestedSymbols, nestedBlocks⟩

theorem nested_contracts_are_exact :
    Checked.ofProgram nestedProgram =
        .ok ⟨nestedProgram, [(0, ⟨3, 2⟩), (1, ⟨2, 2⟩), (5, ⟨2, 2⟩)]⟩ ∧
      ∃ k contract entry exit, Exact nestedProgram
        ⟨nestedProgram, [(0, ⟨3, 2⟩), (1, ⟨2, 2⟩), (5, ⟨2, 2⟩)]⟩ 1 k contract entry exit :=
  ⟨rfl, contracts_are_exact nestedProgram _ rfl 1 rfl⟩

end CheckState

end StackEffect
