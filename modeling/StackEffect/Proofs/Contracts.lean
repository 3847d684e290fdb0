import Mathlib.Tactic.Common
import StackEffect.Proofs.Counters

/-! # The contracts of blocks

A contract is read off the counters when its block is closed. No later operation replaces it, so the
table that a pass ends with says of every `if` how deep its branches dip and how high they end.
-/

namespace StackEffect

namespace ContractTable

variable (table : ContractTable) (opener : Nat) (contract : BlockContract)

theorem find?_insert_self : (insert opener contract table).find? opener = some contract := by
  induction table with
  | nil => simp [insert, find?]
  | cons entry table ih =>
    obtain ⟨key, value⟩ := entry
    simp only [insert]
    split_ifs with hlt heq
    · simp [find?]
    · simp [find?]
    · have hne : (opener == key) = false := beq_false_of_ne heq
      simpa [find?, List.lookup_cons, hne] using ih

theorem find?_insert_of_ne {other : Nat} (hne : other ≠ opener) :
    (insert opener contract table).find? other = table.find? other := by
  have hfalse : (other == opener) = false := beq_false_of_ne hne
  induction table with
  | nil => simp [insert, find?, List.lookup_cons, hfalse]
  | cons entry table ih =>
    obtain ⟨key, value⟩ := entry
    simp only [insert]
    split_ifs with hlt heq
    · simp [find?, List.lookup_cons, hfalse]
    · subst heq
      simp [find?, List.lookup_cons, hfalse]
    · simp only [find?, List.lookup_cons] at ih ⊢
      rw [ih]

end ContractTable

namespace CheckState

variable {sym : Symbols} {ops : List Op} {contracts : ContractTable} {op : Op} {i k : Nat}

/-- The contract of the `if` at `i`, once it is closed before `k`, as its branches demand it. -/
def Recorded (sym : Symbols) (ops : List Op) (i k : Nat) (table : ContractTable) : Prop :=
  ∃ c, table.find? i = some c ∧
    ((∃ close < k, BareBlock sym ops i close c) ∨
      ∃ middle, ∃ close < k, ElseBlock sym ops i middle close c)

theorem Recorded.mono {table table' : ContractTable} {m : Nat} (h : Recorded sym ops i k table)
    (hm : k ≤ m) (hfind : table'.find? i = table.find? i) : Recorded sym ops i m table' := by
  obtain ⟨c, hc, hblock⟩ := h
  refine ⟨c, hfind.trans hc, ?_⟩
  rcases hblock with ⟨close, hlt, hbare⟩ | ⟨middle, close, hlt, helse⟩
  · exact .inl ⟨close, by omega, hbare⟩
  · exact .inr ⟨middle, close, by omega, helse⟩

/-- Every `if` before operation `k` is still open or its contract is recorded. -/
def AllRecorded (sym : Symbols) (ops : List Op) (k : Nat) (st : CheckState) : Prop :=
  ∀ i < k, (ops[i]?).map (·.kind) = some .ifBegin → i ∉ st.branches.map (·.opener) →
    Recorded sym ops i k st.contracts

/-- An operation that neither opens nor closes an `if` and keeps the table leaves all recorded. -/
theorem AllRecorded.step {st next : CheckState} (h : AllRecorded sym ops k st)
    (hop : ops[k]? = some op) (hkind : op.kind ≠ .ifBegin)
    (hbranches : next.branches.map (·.opener) = st.branches.map (·.opener))
    (hfind : ∀ i < k, next.contracts.find? i = st.contracts.find? i) :
    AllRecorded sym ops (k + 1) next := by
  intro i hi hif hopen
  rcases Nat.lt_succ_iff_lt_or_eq.mp hi with hlt | rfl
  · rw [hbranches] at hopen
    exact (h i hlt hif hopen).mono (Nat.le_succ k) (hfind i hlt)
  · rw [hop, Option.map_some, Option.some.injEq] at hif
    exact absurd hif hkind

/-- Closing the innermost block records its contract and keeps the others. -/
theorem AllRecorded.close {st next : CheckState} {b : Branch} {branches : List Branch}
    {c : BlockContract} (h : AllRecorded sym ops k st) (hop : ops[k]? = some op)
    (hkind : op.kind ≠ .ifBegin) (hb : st.branches = b :: branches)
    (hnext : next.branches = branches)
    (hcontracts : next.contracts = ContractTable.insert b.opener c st.contracts)
    (hblock : BareBlock sym ops b.opener k c ∨ ∃ j, ElseBlock sym ops b.opener j k c) :
    AllRecorded sym ops (k + 1) next := by
  intro i hi hif hopen
  by_cases hself : i = b.opener
  · subst hself
    refine ⟨c, by rw [hcontracts, ContractTable.find?_insert_self], ?_⟩
    rcases hblock with hbare | ⟨j, helse⟩
    · exact .inl ⟨k, Nat.lt_succ_self k, hbare⟩
    · exact .inr ⟨j, k, Nat.lt_succ_self k, helse⟩
  rcases Nat.lt_succ_iff_lt_or_eq.mp hi with hlt | rfl
  · have hclosed : i ∉ st.branches.map (·.opener) := by
      rw [hnext] at hopen
      simpa [hb, hself] using hopen
    refine (h i hlt hif hclosed).mono (Nat.le_succ k) ?_
    rw [hcontracts, ContractTable.find?_insert_of_ne _ _ _ hself]
  · rw [hop, Option.map_some, Option.some.injEq] at hif
    exact absurd hif hkind

theorem AllRecorded.move (hop : ops[k]? = some op) {starts : List Nat}
    (hloc : Located sym ops k (before sym ops k) starts)
    (h : AllRecorded sym ops k (before sym ops k))
    (hm : Move sym k (before sym ops k) op (before sym ops (k + 1))) :
    AllRecorded sym ops (k + 1) (before sym ops (k + 1)) := by
  generalize hnext : before sym ops (k + 1) = next at hm ⊢
  cases hm with
  | plain hk hc hf hlen hout =>
    exact h.step hop (fun heq => by simp_all [OpKind.isPlain]) rfl fun _ _ => rfl
  | @ifBegin loc f rest hc hf hty =>
    intro i hi hif hopen
    have hne : i ≠ k := fun heq => hopen (by simp [heq])
    have hlt : i < k := by omega
    exact (h i hlt hif fun hmem => hopen (List.mem_cons_of_mem _ hmem)).mono (Nat.le_succ k) rfl
  | @ifElse loc b branches hc hb hend thenEnd hthen =>
    exact h.step hop (by simp) (by simp [hb]) fun _ _ => rfl
  | @ifEnd loc b branches hc hb hend htypes =>
    have hregions := hloc.regions hc
    rw [hb] at hregions
    exact h.close hop (by simp) hb rfl rfl
      (.inl (hregions.bareBlock hop rfl hend htypes (by rw [hnext]; rfl)))
  | @elseEnd loc b branches thenEnd hc hb hend htypes =>
    have hregions := hloc.regions hc
    rw [hb] at hregions
    exact h.close hop (by simp) hb rfl rfl
      (.inr (hregions.elseBlock hop rfl hend htypes (by rw [hnext]; rfl)))
  | bind hc hf => exact h.step hop (by simp) rfl fun _ _ => rfl
  | unbind hc hcount => exact h.step hop (by simp) rfl fun _ _ => rfl
  | procBegin hc hp =>
    refine h.step hop (by simp) rfl fun i hi => ?_
    exact ContractTable.find?_insert_of_ne _ _ _ (Nat.ne_of_lt hi)
  | procEnd hc hp hb htypes => exact h.step hop (by simp) rfl fun _ _ => rfl

theorem Accepts.allRecorded (h : Accepts sym ops contracts) (hk : k ≤ ops.length) :
    AllRecorded sym ops k (before sym ops k) := by
  refine (h.induct (P := AllRecorded sym ops) (fun i hi => absurd hi (Nat.not_lt_zero i))
    (fun k op hop _ hP hmove => ?_) k hk).2
  exact hP.move hop (h.located (Nat.le_of_lt (List.getElem?_eq_some_iff.mp hop).1)) hmove

theorem Accepts.current_lt (h : Accepts sym ops contracts) (hk : k ≤ ops.length) {id : Nat}
    (hid : (before sym ops k).current = some id) : id < sym.procs.length :=
  (h.induct (P := fun _ st => ∀ id, st.current = some id → id < sym.procs.length)
    (fun id hid => by cases hid) (fun _ _ _ _ hP hmove => hmove.current_lt hP) k hk).2 id hid

/-- An accepted pass ends outside of every procedure, with its table of contracts. -/
theorem Accepts.ended (h : Accepts sym ops contracts) :
    (before sym ops ops.length).current = none ∧
      (before sym ops ops.length).contracts = contracts := by
  obtain ⟨last, hlast, hfinish⟩ := bind_eq_ok h
  have hbefore := h.run_take ops.length
  rw [List.take_length] at hbefore
  obtain rfl : last = before sym ops ops.length := Except.ok.inj (hlast.symm.trans hbefore)
  have hcurrent : (before sym ops ops.length).current = none := by
    cases hid : (before sym ops ops.length).current with
    | none => rfl
    | some id =>
      have hp := List.getElem?_eq_getElem (h.current_lt (Nat.le_refl _) hid)
      simp [finish, hid, hp] at hfinish
  simp only [finish, hcurrent, Option.bind_none, Except.ok.injEq] at hfinish
  exact ⟨hcurrent, hfinish⟩

/-- Outside of every procedure no branch is open. -/
theorem Accepts.branches_eq_nil (h : Accepts sym ops contracts) (hk : k ≤ ops.length)
    (hc : (before sym ops k).current = none) : (before sym ops k).branches = [] := by
  have hloc := h.located hk
  generalize openRegions (ops.take k) = starts at hloc
  cases hloc with
  | outside _ hb => exact hb
  | inside hsome _ => exact absurd hc hsome

/-- Every `if` of an accepted list has a contract that its branches demand. -/
theorem Accepts.recorded (h : Accepts sym ops contracts)
    (hif : (ops[i]?).map (·.kind) = some .ifBegin) :
    Recorded sym ops i ops.length contracts := by
  obtain ⟨op, hop, _⟩ := Option.map_eq_some_iff.mp hif
  obtain ⟨hcurrent, hcontracts⟩ := h.ended
  have hbranches := h.branches_eq_nil (Nat.le_refl _) hcurrent
  have hall := h.allRecorded (Nat.le_refl _) i (List.getElem?_eq_some_iff.mp hop).1 hif
  rw [hbranches, hcontracts] at hall
  exact hall (by simp)

/-- Inside a procedure the counters measure the region under way. -/
theorem Accepts.measures (h : Accepts sym ops contracts) (hk : k ≤ ops.length)
    (hc : (before sym ops k).current ≠ none) :
    ∃ start, (openRegions (ops.take k)).head? = some start ∧
      Measures sym ops start k (before sym ops k).stack := by
  obtain ⟨start, outer, hstarts, hmeasures⟩ := ((h.located hk).regions hc).measures
  exact ⟨start, by rw [hstarts, List.head?_cons], hmeasures⟩

/-- Inside a procedure the low mark is neither above zero nor above the height. -/
theorem Accepts.low_le (h : Accepts sym ops contracts) (hk : k ≤ ops.length)
    (hc : (before sym ops k).current ≠ none) :
    (before sym ops k).stack.low ≤ min 0 (before sym ops k).stack.height := by
  obtain ⟨start, _, hmeasures⟩ := h.measures hk hc
  have hsettled := hmeasures.settled
  have hnonpos := lowest_nonpos (before sym ops (start + 1)).size
    (lengthsIn sym ops (start + 1) k)
  rw [← hmeasures.low] at hnonpos
  unfold TypeStack.Settled at hsettled
  omega

/-- The counters of an accepted pass measure how far the stack has risen and dipped in the region
under way, and so the contract of every `if` is what its branches demand. The numbers that are read
off the counters when a block is closed are never negative. -/
theorem counters_measure_blocks (sym : Symbols) (ops : List Op) (contracts : ContractTable)
    (h : (checkOps sym ops).2 = .ok contracts) :
    (∀ k ≤ ops.length, (run sym {} 0 (ops.take k)).2 = .ok (before sym ops k) ∧
      ((before sym ops k).current ≠ none →
        ∃ start, (openRegions (ops.take k)).head? = some start ∧ start < k ∧
          (before sym ops k).stack.height =
            (before sym ops k).size - (before sym ops (start + 1)).size ∧
          (before sym ops k).stack.low =
            lowest (before sym ops (start + 1)).size (lengthsIn sym ops (start + 1) k) ∧
          (before sym ops k).stack.low ≤ min 0 (before sym ops k).stack.height)) ∧
    (∀ i, (ops[i]?).map (·.kind) = some .ifBegin → ∃ c, contracts.find? i = some c ∧
      ((∃ k, BareBlock sym ops i k c) ∨ ∃ j k, ElseBlock sym ops i j k c)) ∧
    (∀ i k, (ops[k]?).map (·.kind) = some (.ifEnd i) →
      0 ≤ -(before sym ops k).stack.low ∧
      0 ≤ (-(before sym ops k).stack.low).toNat + (before sym ops k).stack.height) ∧
    (∀ i k, (ops[k]?).map (·.kind) = some (.elseEnd i) →
      ∃ b thenEnd, (before sym ops k).branches.head? = some b ∧ b.thenEnd = some thenEnd ∧
        0 ≤ -min thenEnd.low (before sym ops k).stack.low ∧
        0 ≤ max thenEnd.height (before sym ops k).stack.height -
          min thenEnd.low (before sym ops k).stack.low) := by
  have haccept : Accepts sym ops contracts := h
  refine ⟨fun k hk => ⟨haccept.run_take k, fun hc => ?_⟩, fun i hif => ?_, fun i k hend => ?_,
    fun i k hend => ?_⟩
  · obtain ⟨start, hstart, hmeasures⟩ := haccept.measures hk hc
    exact ⟨start, hstart, hmeasures.lt, hmeasures.height, hmeasures.low, haccept.low_le hk hc⟩
  · obtain ⟨c, hc, ⟨k, _, hbare⟩ | ⟨j, k, _, helse⟩⟩ := haccept.recorded hif
    · exact ⟨c, hc, .inl ⟨k, hbare⟩⟩
    · exact ⟨c, hc, .inr ⟨j, k, helse⟩⟩
  · obtain ⟨op, hop, hkind⟩ := Option.map_eq_some_iff.mp hend
    have hk : k ≤ ops.length := Nat.le_of_lt (List.getElem?_eq_some_iff.mp hop).1
    obtain ⟨b, hclosing, _⟩ := (haccept.move hop).of_ifEnd hkind
    have hlow := haccept.low_le hk hclosing.inside
    omega
  · obtain ⟨op, hop, hkind⟩ := Option.map_eq_some_iff.mp hend
    have hk : k ≤ ops.length := Nat.le_of_lt (List.getElem?_eq_some_iff.mp hop).1
    obtain ⟨b, thenEnd, hclosing, hthen, _⟩ := (haccept.move hop).of_elseEnd hkind
    have hlow := haccept.low_le hk hclosing.inside
    exact ⟨b, thenEnd, by rw [hclosing.branches, List.head?_cons], hthen, by omega, by omega⟩

def nowhere : Location := ⟨"", 1, 1, ⟨0, 0⟩⟩

/-- A bare `if` around an `if` with two branches, the inner of which dips deeper than the outer has
dipped before. -/
def nestedBlocks : List Op :=
  [.procBegin 0, .ifBegin, .intrinsic .dup, .pushInt 0, .intrinsic .gt, .ifBegin, .intrinsic .add,
    .pushInt 0, .ifElse 5, .intrinsic .drop, .pushInt 1, .elseEnd 5, .ifEnd 1,
    .procEnd 0 0].map (⟨·, nowhere⟩)

def nestedSymbols : Symbols :=
  { procs := [⟨"f", [.int, .int, .bool], [.int, .int], nowhere, [], [], {}, []⟩] }

theorem counters_measure_nested_blocks :
    (checkOps nestedSymbols nestedBlocks).2 = .ok [(0, ⟨3, 2⟩), (1, ⟨2, 2⟩), (5, ⟨2, 2⟩)] ∧
      ∃ c, ContractTable.find? [(0, ⟨3, 2⟩), (1, ⟨2, 2⟩), (5, ⟨2, 2⟩)] 1 = some c ∧
        ((∃ k, BareBlock nestedSymbols nestedBlocks 1 k c) ∨
          ∃ j k, ElseBlock nestedSymbols nestedBlocks 1 j k c) :=
  ⟨rfl, (counters_measure_blocks nestedSymbols nestedBlocks _ rfl).2.1 1 rfl⟩

end CheckState

end StackEffect
