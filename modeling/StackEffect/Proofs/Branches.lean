import StackEffect.Proofs.Agreement
import StackEffect.Proofs.Framing

/-! # The ways through a block

A pass goes through the branches of an `if` one after the other, while a run takes one of them.
Where the run comes back to the way of the pass, it finds what the pass has found there: both
branches of an `if` begin with the same values and bindings, and behind its end there is the same
whichever was taken.
-/

namespace StackEffect

theorem Aligned.branches_eq_nil {blocks : List Block} {bindings : List Frame}
    {branches : List Branch} (h : Aligned none blocks bindings branches) : branches = [] := by
  cases h
  rfl

namespace CheckState

/-- States of the checker that agree in all that a run can see. -/
structure Alike (st st' : CheckState) : Prop where
  types : st'.stack.types = st.stack.types
  bound : st'.bound = st.bound
  current : st'.current = st.current

/-- What a branch under way before operation `m` has kept of the state behind its `if`, and of the
state at its `else` once that has been passed. -/
structure Kept (sym : Symbols) (ops : List Op) (m : Nat) (current : Option Nat) (b : Branch) :
    Prop where
  opens : (ops[b.opener]?).map (·.kind) = some .ifBegin
  entry : b.entry.types = (before sym ops (b.opener + 1)).stack.types
  bindings : b.bindings = (before sym ops (b.opener + 1)).bindings
  current : current = (before sym ops (b.opener + 1)).current
  thenEnd : ∀ j < m, (ops[j]?).map (·.kind) = some (.ifElse b.opener) →
    ∃ e, b.thenEnd = some e ∧ e.types = (before sym ops j).stack.types

variable {sym : Symbols} {ops : List Op} {contracts : ContractTable} {op : Op} {i j k m t : Nat}
  {b : Branch} {current : Option Nat}

theorem Kept.step (h : Kept sym ops m current b) (hop : ops[m]? = some op)
    (hkind : op.kind ≠ .ifElse b.opener) : Kept sym ops (m + 1) current b where
  opens := h.opens
  entry := h.entry
  bindings := h.bindings
  current := h.current
  thenEnd j hj helse := by
    rcases Nat.lt_succ_iff_lt_or_eq.mp hj with hlt | rfl
    · exact h.thenEnd j hlt helse
    · rw [hop, Option.map_some, Option.some.injEq] at helse
      exact absurd helse hkind

/-- At each point of an accepted pass over nested operations the checker is in step with the blocks.
-/
theorem Accepts.aligned (h : Accepts sym ops contracts) (hn : NestsAll 0 ops [] [])
    (hk : k ≤ ops.length) :
    ∃ blocks, Aligned (before sym ops k).current blocks (before sym ops k).bindings
      (before sym ops k).branches ∧ NestsAll k (ops.drop k) blocks [] := by
  refine (h.induct (P := fun k st => ∃ blocks, Aligned st.current blocks st.bindings st.branches ∧
    NestsAll k (ops.drop k) blocks []) ⟨[], .outside, hn⟩ (fun k op hop _ hP hmove => ?_) k hk).2
  obtain ⟨blocks, haligned, hnests⟩ := hP
  obtain ⟨hlt, rfl⟩ := List.getElem?_eq_some_iff.mp hop
  rw [List.drop_eq_getElem_cons hlt] at hnests
  cases hnests with
  | cons hfirst hrest => exact ⟨_, hmove.aligned hfirst haligned, hrest⟩

theorem Accepts.nests (h : Accepts sym ops contracts) (hn : NestsAll 0 ops [] [])
    (hop : ops[k]? = some op) :
    ∃ blocks after, Aligned (before sym ops k).current blocks (before sym ops k).bindings
      (before sym ops k).branches ∧ Nests k op blocks after := by
  obtain ⟨hlt, rfl⟩ := List.getElem?_eq_some_iff.mp hop
  obtain ⟨blocks, haligned, hnests⟩ := h.aligned hn (Nat.le_of_lt hlt)
  rw [List.drop_eq_getElem_cons hlt] at hnests
  cases hnests with
  | cons hfirst hrest => exact ⟨_, _, haligned, hfirst⟩

/-- The operation at `t` goes on with the block that `i` opens, or closes it. -/
def Continues (ops : List Op) (i t : Nat) : Prop :=
  (ops[t]?).map (·.kind) = some (.ifElse i) ∨ Closes ops i t

/-- A block is continued or closed while it is the innermost one, with the bindings that it began
with. -/
theorem Accepts.innermost (h : Accepts sym ops contracts) (hn : NestsAll 0 ops [] [])
    (ht : Continues ops i t) :
    ∃ b rest, (before sym ops t).branches = b :: rest ∧ b.opener = i ∧
      b.bindings = (before sym ops t).bindings := by
  obtain ⟨op, hop, hkind⟩ : ∃ op, ops[t]? = some op ∧
      (op.kind = .ifElse i ∨ op.kind = .ifEnd i ∨ op.kind = .elseEnd i) := by
    simpa [Continues, Closes, Option.map_eq_some_iff, exists_or, and_or_left] using ht
  obtain ⟨blocks, after, haligned, hnests⟩ := h.nests hn hop
  cases hnests with
  | plain hk => rcases hkind with hkind | hkind | hkind <;> simp [hkind, OpKind.isPlain] at hk
  | ifElse hk hopener | ifEnd hk hopener =>
    obtain ⟨b, rest, hb, hsame, hbindings, _⟩ := haligned.of_then hk
    exact ⟨b, rest, hb, by simp_all, hbindings⟩
  | elseEnd hk hopener =>
    obtain ⟨b, rest, _, hb, hsame, hbindings, _⟩ := haligned.of_else hk
    exact ⟨b, rest, hb, by simp_all, hbindings⟩
  | procBegin | procEnd | ifBegin | bind | unbind => simp at hkind

theorem Accepts.opener_lt (h : Accepts sym ops contracts) (hn : NestsAll 0 ops [] [])
    (ht : Continues ops i t) (hle : t ≤ ops.length) : i < t := by
  obtain ⟨b, rest, hb, rfl, _⟩ := h.innermost hn ht
  exact List.rel_of_pairwise_cons (h.openers_descending hle) (by simp [openers, hb])

/-- The branches under way have kept the states behind their `if`s and at their `else`s. -/
def AllKept (sym : Symbols) (ops : List Op) (m : Nat) (st : CheckState) : Prop :=
  ∀ b ∈ st.branches, Kept sym ops m st.current b

theorem AllKept.step {st : CheckState} (h : AllKept sym ops m st) (hop : ops[m]? = some op)
    (hkind : ∀ opener, op.kind ≠ .ifElse opener) {branches : List Branch}
    (hsub : branches ⊆ st.branches) : ∀ b ∈ branches, Kept sym ops (m + 1) st.current b :=
  fun b hb => (h b (hsub hb)).step hop (hkind b.opener)

theorem Accepts.allKept (h : Accepts sym ops contracts) (hn : NestsAll 0 ops [] [])
    (hm : m ≤ ops.length) : AllKept sym ops m (before sym ops m) := by
  refine (h.induct (P := AllKept sym ops) (by simp [AllKept]) (fun m op hop _ hP hmove => ?_) m
    hm).2
  have hlt : m < ops.length := (List.getElem?_eq_some_iff.mp hop).1
  generalize hnext : before sym ops (m + 1) = next at hmove
  cases hmove with
  | plain hk hc hf hlen hout =>
    exact hP.step hop (fun opener heq => by simp_all [OpKind.isPlain]) (List.Subset.refl _)
  | ifBegin hc hf hty =>
    refine List.forall_mem_cons.mpr ⟨?_, hP.step hop (by simp) (List.Subset.refl _)⟩
    refine ⟨by simp [hop], by rw [hnext]; rfl, by rw [hnext], by rw [hnext], fun j hj helse => ?_⟩
    -- No `else` before `m` can name `m` as its opener.
    have hopener := h.opener_lt hn (.inl helse) (by omega)
    simp only at hopener
    omega
  | @ifElse loc b branches hc hb hend thenEnd hthen =>
    have hdesc := h.openers_descending (Nat.le_of_lt hlt)
    rw [AllKept, hb, List.forall_mem_cons] at hP
    refine List.forall_mem_cons.mpr ⟨?_, fun b' hb' => (hP.2 b' hb').step hop ?_⟩
    · refine ⟨hP.1.opens, hP.1.entry, hP.1.bindings, hP.1.current, fun j hj helse => ?_⟩
      rcases Nat.lt_succ_iff_lt_or_eq.mp hj with hlt | rfl
      -- An earlier `else` of this block would have set the end of the first branch already.
      · obtain ⟨e, he, _⟩ := hP.1.thenEnd j hlt helse
        rw [hend] at he
        cases he
      · exact ⟨thenEnd, rfl, by rw [hthen]⟩
    · rw [openers, hb, List.map_cons] at hdesc
      have hlt := List.rel_of_pairwise_cons hdesc.tail (List.mem_map_of_mem hb')
      simp only [ne_eq, OpKind.ifElse.injEq]
      omega
  | ifEnd hc hb | elseEnd hc hb =>
    refine hP.step hop (by simp) ?_
    rw [hb]
    exact List.subset_cons_self _ _
  | bind | unbind => exact hP.step hop (by simp) (List.Subset.refl _)
  | procBegin hc hp =>
    obtain ⟨blocks, haligned, _⟩ := h.aligned hn (Nat.le_of_lt hlt)
    rw [hc] at haligned
    simp [AllKept, haligned.branches_eq_nil]
  | procEnd hc hp hb htypes => simp [AllKept, hb]

/-- What is known of the block that an operation goes on with or closes. -/
theorem Accepts.kept (h : Accepts sym ops contracts) (hn : NestsAll 0 ops [] [])
    (ht : Continues ops i t) :
    t < ops.length ∧ ∃ b rest, (before sym ops t).branches = b :: rest ∧ b.opener = i ∧
      b.bindings = (before sym ops t).bindings ∧ Kept sym ops t (before sym ops t).current b := by
  have hlt : t < ops.length := by
    by_contra hge
    simp [Continues, Closes, List.getElem?_eq_none (Nat.not_lt.mp hge)] at ht
  obtain ⟨b, rest, hb, hopener, hbindings⟩ := h.innermost hn ht
  exact ⟨hlt, b, rest, hb, hopener, hbindings, h.allKept hn (Nat.le_of_lt hlt) b (by simp [hb])⟩

/-- An `if` that is not taken goes on with what it began with, behind its `else` or its end. -/
theorem Accepts.alike_skipped (h : Accepts sym ops contracts) (hn : NestsAll 0 ops [] [])
    (hop : ops[t]? = some op) (hkind : op.kind = .ifElse i ∨ op.kind = .ifEnd i) :
    Alike (before sym ops (i + 1)) (before sym ops (t + 1)) := by
  have ht : Continues ops i t := by
    rcases hkind with hkind | hkind <;> simp [Continues, Closes, hop, hkind]
  obtain ⟨_, b, rest, hb, rfl, hbindings, hkept⟩ := h.kept hn ht
  rcases hkind with hkind | hkind
  · obtain ⟨b', rest', hb', _, _, hframes, hkeeps, hcurrent⟩ := (h.move hop).of_ifElse hkind
    obtain ⟨rfl, rfl⟩ := List.cons.inj (hb.symm.trans hb')
    refine ⟨?_, by rw [bound, hkeeps, hkept.bindings, bound], hcurrent.trans hkept.current⟩
    rw [← hkept.entry, TypeStack.types, hframes, TypeStack.types]
  · obtain ⟨b', hclosing, _, htypes⟩ := (h.move hop).of_ifEnd hkind
    obtain ⟨rfl, rfl⟩ := List.cons.inj (hb.symm.trans hclosing.branches)
    refine ⟨?_, ?_, hclosing.current.trans hkept.current⟩
    · rw [← hkept.entry, htypes, TypeStack.types, hclosing.frames, TypeStack.types]
    · rw [bound, hclosing.bindings, ← hbindings, hkept.bindings, bound]

/-- An `else` stands before the end of its block. -/
theorem Accepts.else_lt (h : Accepts sym ops contracts) (hn : NestsAll 0 ops [] [])
    (hj : (ops[j]?).map (·.kind) = some (.ifElse i)) (ht : Closes ops i t) : j < t := by
  obtain ⟨hjlt, b, rest, hb, rfl, _⟩ := h.kept hn (.inl hj)
  obtain ⟨htlt, hopeners, _⟩ := h.closes ht
  by_contra hge
  have hne : j ≠ t := by
    rintro rfl
    simp [Closes, hj] at ht
  have hlt := h.opener_lt hn (.inr ht) (Nat.le_of_lt htlt)
  have hdesc := h.openers_descending (Nat.le_of_lt htlt)
  rw [hopeners] at hdesc
  -- Once closed at `t` the block is no longer open at `j`, where it is the innermost one.
  have hclosed : b.opener ∉ (before sym ops (t + 1)).openers := fun hmem => by
    have := List.rel_of_pairwise_cons hdesc.tail hmem
    omega
  have hlater := h.closed_later (by omega) (by omega) (Nat.le_of_lt hjlt) hclosed
  simp [openers, hb] at hlater

/-- The first branch goes on behind the end of its block with what it has reached. -/
theorem Accepts.alike_joined (h : Accepts sym ops contracts) (hn : NestsAll 0 ops [] [])
    (hj : (ops[j]?).map (·.kind) = some (.ifElse i)) (hop : ops[t]? = some op)
    (hkind : op.kind = .elseEnd i) : Alike (before sym ops j) (before sym ops (t + 1)) := by
  have ht : Closes ops i t := by simp [Closes, hop, hkind]
  have hjt := h.else_lt hn hj ht
  obtain ⟨_, a, _, _, rfl, habindings, hakept⟩ := h.kept hn (.inl hj)
  obtain ⟨_, b, rest, hb, hsame, hbindings, hkept⟩ := h.kept hn (.inr ht)
  obtain ⟨b', thenEnd, hclosing, hend, htypes⟩ := (h.move hop).of_elseEnd hkind
  obtain ⟨rfl, rfl⟩ := List.cons.inj (hb.symm.trans hclosing.branches)
  obtain ⟨e, he, hetypes⟩ := hkept.thenEnd j hjt (by rw [hsame]; exact hj)
  obtain rfl : thenEnd = e := Option.some.inj (hend.symm.trans he)
  refine ⟨?_, ?_, ?_⟩
  · rw [← hetypes, htypes, TypeStack.types, hclosing.frames, TypeStack.types]
  · rw [bound, hclosing.bindings, ← hbindings, hkept.bindings, hsame, ← hakept.bindings, habindings,
      bound]
  · rw [hclosing.current, hkept.current, hsame, hakept.current]

theorem mem_of_kind {kind : OpKind} (h : (ops[k]?).map (·.kind) = some kind) :
    ∃ op ∈ ops, op.kind = kind := by
  obtain ⟨op, hop, hkind⟩ := Option.map_eq_some_iff.mp h
  exact ⟨op, List.mem_of_getElem? hop, hkind⟩

/-- An `if` that is not taken has an `else` or an end to go on behind. -/
theorem Accepts.exists_skip (h : Accepts sym ops contracts)
    (hif : (ops[i]?).map (·.kind) = some .ifBegin) :
    ∃ op ∈ ops, op.kind ∈ [.ifElse i, .ifEnd i] := by
  obtain ⟨_, _, ⟨_, _, hbare⟩ | ⟨_, _, _, helse⟩⟩ := h.recorded hif
  · obtain ⟨op, hmem, hkind⟩ := mem_of_kind hbare.closed
    exact ⟨op, hmem, by simp [hkind]⟩
  · obtain ⟨op, hmem, hkind⟩ := mem_of_kind helse.middle
    exact ⟨op, hmem, by simp [hkind]⟩

/-- A block with an `else` is not closed as one without. -/
theorem Accepts.not_bare (h : Accepts sym ops contracts) (hn : NestsAll 0 ops [] [])
    (hj : (ops[j]?).map (·.kind) = some (.ifElse i))
    (ht : (ops[t]?).map (·.kind) = some (.ifEnd i)) : False := by
  have hjt := h.else_lt hn hj (.inl ht)
  obtain ⟨_, b, rest, hb, rfl, _, hkept⟩ := h.kept hn (.inr (.inl ht))
  obtain ⟨e, he, _⟩ := hkept.thenEnd j hjt hj
  obtain ⟨op, hop, hkind⟩ := Option.map_eq_some_iff.mp ht
  obtain ⟨b', hclosing, hend, _⟩ := (h.move hop).of_ifEnd hkind
  obtain ⟨rfl, rfl⟩ := List.cons.inj (hb.symm.trans hclosing.branches)
  rw [hend] at he
  cases he

/-- A first branch has the end of its block to go on behind. -/
theorem Accepts.exists_join (h : Accepts sym ops contracts) (hn : NestsAll 0 ops [] [])
    (hj : (ops[j]?).map (·.kind) = some (.ifElse i)) :
    ∃ op ∈ ops, op.kind ∈ [.elseEnd i] := by
  obtain ⟨_, b, _, _, rfl, _, hkept⟩ := h.kept hn (.inl hj)
  obtain ⟨_, _, ⟨_, _, hbare⟩ | ⟨_, _, _, helse⟩⟩ := h.recorded hkept.opens
  · exact (h.not_bare hn hj hbare.closed).elim
  · obtain ⟨op, hmem, hkind⟩ := mem_of_kind helse.closed
    exact ⟨op, hmem, by simp [hkind]⟩

end CheckState

end StackEffect
