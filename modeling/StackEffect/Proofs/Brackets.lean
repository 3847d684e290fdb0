import Mathlib.Data.List.Sort
import StackEffect.Proofs.Framing

/-! # Well-bracketed operations

The checker can be given any list of operations, not only one that resolution has made. What it
accepts is well bracketed all the same: procedures stand one behind the other, nothing stands
outside of them, and in their bodies each `if` is closed by operations that name it. The table that
it gives then has a contract for each of these blocks and no others.
-/

namespace StackEffect

namespace OpKind

/-- Whether an operation opens, continues or closes an `if` or a procedure. -/
def isBracket : OpKind → Bool
  | ifBegin | ifElse _ | ifEnd _ | elseEnd _ | procBegin _ | procEnd _ _ => true
  | _ => false

def opensBlock : OpKind → Bool
  | ifBegin | procBegin _ => true
  | _ => false

theorem isBracket_of_isPlain {kind : OpKind} (h : kind.isPlain) : kind.isBracket = false := by
  cases kind <;> first | rfl | cases h

end OpKind

/-- Operations inside a procedure, the first of which has the given index. Each `if` is closed, with
or without an `else`, by operations that name its index, and what its branches hold is of this form
too. -/
inductive BodyOps : Nat → List Op → Prop
  | nil {index : Nat} : BodyOps index []
  | single {index : Nat} {op : Op} {rest : List Op} (hop : op.kind.isBracket = false)
      (hrest : BodyOps (index + 1) rest) : BodyOps index (op :: rest)
  | bareIf {index : Nat} {loc loc' : Location} {body rest : List Op}
      (hbody : BodyOps (index + 1) body) (hrest : BodyOps (index + 1 + body.length + 1) rest) :
      BodyOps index (⟨.ifBegin, loc⟩ :: (body ++ ⟨.ifEnd index, loc'⟩ :: rest))
  | ifElse {index : Nat} {loc loc' loc'' : Location} {first second rest : List Op}
      (hfirst : BodyOps (index + 1) first) (hsecond : BodyOps (index + 1 + first.length + 1) second)
      (hrest : BodyOps (index + 1 + first.length + 1 + second.length + 1) rest) :
      BodyOps index (⟨.ifBegin, loc⟩ :: (first ++ ⟨.ifElse index, loc'⟩ ::
        (second ++ ⟨.elseEnd index, loc''⟩ :: rest)))

/-- Procedures one behind the other, the first of which begins at the given index. -/
inductive ProcedureOps : Nat → List Op → Prop
  | nil {index : Nat} : ProcedureOps index []
  | proc {index id id' frame : Nat} {loc loc' : Location} {body rest : List Op}
      (hbody : BodyOps (index + 1) body) (hrest : ProcedureOps (index + 1 + body.length + 1) rest) :
      ProcedureOps index (⟨.procBegin id, loc⟩ :: (body ++ ⟨.procEnd id' frame, loc'⟩ :: rest))

/-- What may follow inside a procedure while some branches are open, innermost first: a body closes
each of them, and then the procedure. -/
inductive ClosingOps : Nat → List Branch → List Op → Prop
  | procEnd {index id frame : Nat} {loc : Location} {body rest : List Op}
      (hbody : BodyOps index body) (hrest : ProcedureOps (index + body.length + 1) rest) :
      ClosingOps index [] (body ++ ⟨.procEnd id frame, loc⟩ :: rest)
  | ifEnd {index : Nat} {b : Branch} {branches : List Branch} {loc : Location}
      {body rest : List Op} (hend : b.thenEnd = none) (hbody : BodyOps index body)
      (hrest : ClosingOps (index + body.length + 1) branches rest) :
      ClosingOps index (b :: branches) (body ++ ⟨.ifEnd b.opener, loc⟩ :: rest)
  | ifElse {index : Nat} {b : Branch} {branches : List Branch} {loc loc' : Location}
      {first second rest : List Op} (hend : b.thenEnd = none) (hfirst : BodyOps index first)
      (hsecond : BodyOps (index + first.length + 1) second)
      (hrest : ClosingOps (index + first.length + 1 + second.length + 1) branches rest) :
      ClosingOps index (b :: branches) (first ++ ⟨.ifElse b.opener, loc⟩ ::
        (second ++ ⟨.elseEnd b.opener, loc'⟩ :: rest))
  | elseEnd {index : Nat} {b : Branch} {branches : List Branch} {loc : Location}
      {body rest : List Op} (hend : b.thenEnd ≠ none) (hbody : BodyOps index body)
      (hrest : ClosingOps (index + body.length + 1) branches rest) :
      ClosingOps index (b :: branches) (body ++ ⟨.elseEnd b.opener, loc⟩ :: rest)

/-- Operations in front of a body become part of it, whatever is closed behind it. -/
theorem ClosingOps.prepend {mid : Nat} {branches : List Branch} {ops : List Op}
    (h : ClosingOps mid branches ops) (index : Nat) (front : List Op)
    (hmid : mid = index + front.length)
    (hfront : ∀ body, BodyOps mid body → BodyOps index (front ++ body)) :
    ClosingOps index branches (front ++ ops) := by
  subst hmid
  -- In each case the operations join the first body, and the indices behind it stay the same.
  cases h with
  | procEnd hbody hrest =>
    rw [← List.append_assoc]
    exact .procEnd (hfront _ hbody) (by rwa [List.length_append, ← Nat.add_assoc])
  | ifEnd hend hbody hrest =>
    rw [← List.append_assoc]
    exact .ifEnd hend (hfront _ hbody) (by rwa [List.length_append, ← Nat.add_assoc])
  | ifElse hend hfirst hsecond hrest =>
    rw [← List.append_assoc]
    exact .ifElse hend (hfront _ hfirst) (by rwa [List.length_append, ← Nat.add_assoc])
      (by rwa [List.length_append, ← Nat.add_assoc])
  | elseEnd hend hbody hrest =>
    rw [← List.append_assoc]
    exact .elseEnd hend (hfront _ hbody) (by rwa [List.length_append, ← Nat.add_assoc])

theorem ClosingOps.single {index : Nat} {branches : List Branch} {op : Op} {ops : List Op}
    (h : ClosingOps (index + 1) branches ops) (hop : op.kind.isBracket = false) :
    ClosingOps index branches (op :: ops) :=
  h.prepend index [op] rfl fun _ hbody => .single hop hbody

/-- An `if` whose branches are closed is part of the body around it. -/
theorem ClosingOps.ifBegin {index : Nat} {branches : List Branch} {loc : Location} {b : Branch}
    {ops : List Op} (h : ClosingOps (index + 1) (b :: branches) ops) (hopener : b.opener = index)
    (hend : b.thenEnd = none) : ClosingOps index branches (⟨.ifBegin, loc⟩ :: ops) := by
  subst hopener
  cases h with
  | @ifEnd _ _ _ loc' body rest _ hbody hrest =>
    have hlength : b.opener + 1 + body.length + 1 = b.opener +
        (⟨.ifBegin, loc⟩ :: (body ++ [⟨.ifEnd b.opener, loc'⟩]) : List Op).length := by
      simp only [List.length_cons, List.length_append, List.length_nil]
      omega
    have hclosed := hrest.prepend _ _ hlength fun more hmore => by
      simpa using BodyOps.bareIf hbody hmore
    simpa using hclosed
  | @ifElse _ _ _ loc' loc'' first second rest _ hfirst hsecond hrest =>
    have hlength : b.opener + 1 + first.length + 1 + second.length + 1 = b.opener +
        (⟨.ifBegin, loc⟩ :: (first ++ ⟨.ifElse b.opener, loc'⟩ ::
          (second ++ [⟨.elseEnd b.opener, loc''⟩])) : List Op).length := by
      simp only [List.length_cons, List.length_append, List.length_nil]
      omega
    have hclosed := hrest.prepend _ _ hlength fun more hmore => by
      simpa using BodyOps.ifElse hfirst hsecond hmore
    simpa using hclosed
  | elseEnd hsome => exact absurd hend hsome

namespace CheckState

variable {sym : Symbols} {ops : List Op} {contracts : ContractTable} {op : Op}
  {st next : CheckState} {i k : Nat}

/-- What may follow at a point of a pass: the rest of the procedure under way, or procedures. -/
def Expects (index : Nat) (st : CheckState) (ops : List Op) : Prop :=
  match st.current with
  | none => ProcedureOps index ops
  | some _ => ClosingOps index st.branches ops

theorem Expects.inside {index : Nat} (h : Expects index st ops) (hc : st.current ≠ none) :
    ClosingOps index st.branches ops := by
  obtain ⟨id, hid⟩ := Option.ne_none_iff_exists'.mp hc
  simpa [Expects, hid] using h

theorem expects_of_inside {index : Nat} (hc : st.current ≠ none)
    (h : ClosingOps index st.branches ops) : Expects index st ops := by
  obtain ⟨id, hid⟩ := Option.ne_none_iff_exists'.mp hc
  simpa [Expects, hid] using h

/-- What may follow before an operation is that operation and what may follow behind it. -/
theorem Move.expects (h : Move sym k st op next) (houtside : st.current = none → st.branches = [])
    (hnext : Expects (k + 1) next ops) : Expects k st (op :: ops) := by
  have hnone : BodyOps k [] := .nil
  cases h with
  | plain hk hc =>
    exact expects_of_inside hc ((hnext.inside hc).single (OpKind.isBracket_of_isPlain hk))
  | bind hc | unbind hc => exact expects_of_inside hc ((hnext.inside hc).single rfl)
  | ifBegin hc => exact expects_of_inside hc ((hnext.inside hc).ifBegin rfl rfl)
  | ifElse hc hb hend =>
    refine expects_of_inside hc ?_
    rw [hb]
    -- The first branch has ended, so only the end of the second can close the block.
    cases hnext.inside hc with
    | ifEnd hopen | ifElse hopen => cases hopen
    | elseEnd _ hbody hrest => exact ClosingOps.ifElse hend hnone hbody hrest
  | ifEnd hc hb hend =>
    refine expects_of_inside hc ?_
    rw [hb]
    exact ClosingOps.ifEnd hend hnone (hnext.inside hc)
  | elseEnd hc hb hend =>
    refine expects_of_inside hc ?_
    rw [hb]
    exact ClosingOps.elseEnd (by simp [hend]) hnone (hnext.inside hc)
  | procBegin hc =>
    have hclosing : ClosingOps (k + 1) st.branches ops := hnext
    rw [houtside hc] at hclosing
    cases hclosing with
    | procEnd hbody hrest => simpa [Expects, hc] using ProcedureOps.proc hbody hrest
  | procEnd hc hp hb =>
    refine expects_of_inside hc ?_
    rw [hb]
    exact ClosingOps.procEnd hnone hnext

/-- At every point of an accepted pass there follows what may follow. -/
theorem Accepts.expects (h : Accepts sym ops contracts) (hk : k ≤ ops.length) :
    Expects k (before sym ops k) (ops.drop k) := by
  -- From the end of the list backwards, where nothing is left open.
  induction hk using Nat.decreasingInduction with
  | self => simpa [Expects, h.ended.1] using ProcedureOps.nil
  | of_succ k hk ih =>
    rw [List.drop_eq_getElem_cons hk]
    exact (h.move (List.getElem?_eq_getElem hk)).expects (h.branches_eq_nil (Nat.le_of_lt hk)) ih

/-! ## The keys of the table -/

end CheckState

namespace ContractTable

variable {table : ContractTable} {opener i : Nat} {contract : BlockContract}

theorem mem_keys_iff : i ∈ table.map (·.1) ↔ (table.find? i).isSome := by
  induction table with
  | nil => simp [find?]
  | cons entry table ih =>
    by_cases hkey : i = entry.1
    · simp [find?, hkey]
    · have hne : (i == entry.1) = false := beq_false_of_ne hkey
      rw [List.map_cons, List.mem_cons, or_iff_right hkey, ih, find?, find?, List.lookup_cons, hne]

theorem mem_keys_insert :
    i ∈ (insert opener contract table).map (·.1) ↔ i = opener ∨ i ∈ table.map (·.1) := by
  rw [mem_keys_iff, mem_keys_iff]
  by_cases hi : i = opener
  · simp [hi, find?_insert_self]
  · simp [hi, find?_insert_of_ne]

/-- The entries stay in the order of their keys. -/
theorem pairwise_insert (h : (table.map (·.1)).Pairwise (· < ·)) :
    ((insert opener contract table).map (·.1)).Pairwise (· < ·) := by
  induction table with
  | nil => simp [insert]
  | cons entry table ih =>
    obtain ⟨hentry, htable⟩ := List.pairwise_cons.mp h
    unfold insert
    split
    · rename_i hlt
      refine List.pairwise_cons.mpr ⟨fun key hkey => ?_, h⟩
      rcases List.mem_cons.mp hkey with rfl | hkey
      · exact hlt
      · exact Nat.lt_trans hlt (hentry key hkey)
    split
    · rename_i heq
      exact List.pairwise_cons.mpr ⟨fun key hkey => heq ▸ hentry key hkey, htable⟩
    · rename_i hge hne
      refine List.pairwise_cons.mpr ⟨fun key hkey => ?_, ih htable⟩
      rcases mem_keys_insert.mp hkey with rfl | hkey
      · exact Nat.lt_of_le_of_ne (Nat.not_lt.mp hge) (Ne.symm hne)
      · exact hentry key hkey

end ContractTable

def blockOpeners (ops : List Op) : List Nat :=
  (List.range ops.length).filter fun i => (ops[i]?).any (·.kind.opensBlock)

theorem mem_blockOpeners {ops : List Op} {i : Nat} :
    i ∈ blockOpeners ops ↔ ∃ op, ops[i]? = some op ∧ op.kind.opensBlock := by
  rw [blockOpeners, List.mem_filter, List.mem_range, Option.any_eq_true]
  refine ⟨And.right, ?_⟩
  rintro ⟨op, hop, hopens⟩
  exact ⟨(List.getElem?_eq_some_iff.mp hop).1, op, hop, hopens⟩

namespace CheckState

variable {sym : Symbols} {ops : List Op} {contracts : ContractTable} {op : Op}
  {st next : CheckState} {i k : Nat}

/-- The keys of a table are in order, and only operations that open a block are keys or have opened
a branch that is still open. -/
structure KeyedByOpeners (ops : List Op) (st : CheckState) : Prop where
  sorted : (st.contracts.map (·.1)).Pairwise (· < ·)
  keys : ∀ i ∈ st.contracts.map (·.1), i ∈ blockOpeners ops
  openers : ∀ i ∈ st.openers, i ∈ blockOpeners ops

theorem KeyedByOpeners.record (h : KeyedByOpeners ops st) {opener : Nat} {c : BlockContract}
    (hopener : opener ∈ blockOpeners ops)
    (hcontracts : next.contracts = ContractTable.insert opener c st.contracts)
    (hopeners : next.openers ⊆ st.openers) : KeyedByOpeners ops next where
  sorted := by
    rw [hcontracts]
    exact ContractTable.pairwise_insert h.sorted
  keys i hi := by
    rw [hcontracts] at hi
    rcases ContractTable.mem_keys_insert.mp hi with rfl | hi
    · exact hopener
    · exact h.keys i hi
  openers i hi := h.openers i (hopeners hi)

theorem KeyedByOpeners.move (h : KeyedByOpeners ops st) (hop : ops[k]? = some op)
    (hmove : Move sym k st op next) : KeyedByOpeners ops next := by
  cases hmove with
  | plain | bind | unbind | procEnd => exact ⟨h.sorted, h.keys, h.openers⟩
  | ifBegin =>
    refine ⟨h.sorted, h.keys, List.forall_mem_cons.mpr ⟨?_, h.openers⟩⟩
    exact mem_blockOpeners.mpr ⟨_, hop, rfl⟩
  | ifElse hc hb =>
    refine ⟨h.sorted, h.keys, ?_⟩
    simpa [CheckState.openers, hb] using h.openers
  | @ifEnd loc b branches hc hb | @elseEnd loc b branches thenEnd hc hb =>
    have hopeners : st.openers = b.opener :: branches.map (·.opener) := by
      rw [CheckState.openers, hb, List.map_cons]
    refine h.record (h.openers b.opener ?_) rfl ?_
    · simp [hopeners]
    · rw [hopeners]
      exact List.subset_cons_self _ _
  | procBegin => exact h.record (mem_blockOpeners.mpr ⟨_, hop, rfl⟩) rfl (List.Subset.refl _)

theorem Accepts.keyed (h : Accepts sym ops contracts) (hk : k ≤ ops.length) :
    KeyedByOpeners ops (before sym ops k) := by
  refine (h.induct (P := fun _ st => KeyedByOpeners ops st) ⟨by simp, by simp, by simp [openers]⟩
    (fun k op hop _ hP hmove => ?_) k hk).2
  exact hP.move hop hmove

/-- The contract of a procedure is what it declares. -/
theorem Accepts.procedure_recorded (h : Accepts sym ops contracts) {id : Nat}
    (hbegin : (ops[i]?).map (·.kind) = some (.procBegin id)) :
    ∃ p, sym.procs[id]? = some p ∧ contracts.find? i = some ⟨p.ins.length, p.outs.length⟩ := by
  obtain ⟨⟨kind, loc⟩, hop, rfl⟩ := Option.map_eq_some_iff.mp hbegin
  have hi : i < ops.length := (List.getElem?_eq_some_iff.mp hop).1
  have hdesc := h.openers_descending (Nat.le_of_lt hi)
  have hlater := h.find?_later (Nat.lt_succ_self i) hi
  have hmove := h.move hop
  generalize before sym ops (i + 1) = next at hmove hlater
  cases hmove with
  | plain hk => cases hk
  | @procBegin _ _ p hc hp =>
    refine ⟨p, hp, (hlater fun hmem => ?_).trans (ContractTable.find?_insert_self _ _ _)⟩
    exact Nat.lt_irrefl i (List.rel_of_pairwise_cons hdesc hmem)

/-- The contract table has a key for each block of an accepted list, and no other key. -/
theorem Accepts.keys_eq (h : Accepts sym ops contracts) :
    contracts.map (·.1) = blockOpeners ops := by
  have hkeyed := h.keyed (Nat.le_refl _)
  obtain ⟨hsorted, hkeys, _⟩ := hkeyed
  rw [h.ended.2] at hsorted hkeys
  refine hsorted.eq_of_mem_iff (List.pairwise_lt_range.filter _) fun i => ⟨hkeys i, fun hi => ?_⟩
  rw [ContractTable.mem_keys_iff]
  obtain ⟨op, hop, hopens⟩ := mem_blockOpeners.mp hi
  cases hkind : op.kind with
  | ifBegin =>
    obtain ⟨c, hc, _⟩ := h.recorded (i := i) (by rw [hop, Option.map_some, hkind])
    simp [hc]
  | procBegin id =>
    obtain ⟨p, _, hc⟩ := h.procedure_recorded (i := i) (by rw [hop, Option.map_some, hkind])
    simp [hc]
  | _ => simp [hkind, OpKind.opensBlock] at hopens

end CheckState

/-- Whatever list of operations it is given, the checker accepts only procedures one behind the
other, with nothing between them. In their bodies each `if` is closed by the end, and continued by
the `else`, that name its index, and blocks do not cross. The keys of the contract table are the
indices of the operations that open an `if` or a procedure, and the contract of a procedure says how
many values it declares to take and to leave. -/
theorem accepted_operations_are_bracketed (sym : Symbols) (ops : List Op)
    (contracts : ContractTable) (h : (checkOps sym ops).2 = .ok contracts) :
    ProcedureOps 0 ops ∧ contracts.map (·.1) = blockOpeners ops ∧
      ∀ i id, (ops[i]?).map (·.kind) = some (.procBegin id) →
        ∃ p, sym.procs[id]? = some p ∧
          contracts.find? i = some ⟨p.ins.length, p.outs.length⟩ := by
  have haccept : CheckState.Accepts sym ops contracts := h
  exact ⟨haccept.expects (Nat.zero_le _), haccept.keys_eq, fun _ _ => haccept.procedure_recorded⟩

/-- Operations that no source text has: a binding is never taken back, and procedures are closed
under each other's numbers. -/
def looseBlocks : List Op :=
  [.procBegin 0, .pushBool true, .ifBegin, .pushBool false, .ifBegin, .ifEnd 4, .ifElse 2,
    .pushInt 3, .bind 1, .elseEnd 2, .procEnd 1 8, .procBegin 1, .procEnd 0 0].map
      (⟨·, CheckState.nowhere⟩)

def looseSymbols : Symbols :=
  { procs := [⟨"f", [.int], [], CheckState.nowhere, [], [], {}, []⟩,
      ⟨"g", [], [.int], CheckState.nowhere, [], [], {}, []⟩] }

theorem loose_operations_are_bracketed :
    (checkOps looseSymbols looseBlocks).2 =
        .ok [(0, ⟨1, 0⟩), (2, ⟨0, 0⟩), (4, ⟨0, 0⟩), (11, ⟨0, 1⟩)] ∧
      ProcedureOps 0 looseBlocks ∧ blockOpeners looseBlocks = [0, 2, 4, 11] := by
  have hcheck : (checkOps looseSymbols looseBlocks).2 =
      .ok [(0, ⟨1, 0⟩), (2, ⟨0, 0⟩), (4, ⟨0, 0⟩), (11, ⟨0, 1⟩)] := by decide +kernel
  obtain ⟨hbracketed, hkeys, _⟩ := accepted_operations_are_bracketed _ _ _ hcheck
  exact ⟨hcheck, hbracketed, hkeys.symm⟩

end StackEffect
