import StackEffect.Proofs.Agreement
import StackEffect.Proofs.CheckFaults
import StackEffect.Proofs.Lines
import StackEffect.Proofs.Locality
import StackEffect.Proofs.Weakening

/-! # Adding lines to a text

Lines behind a text that is accepted change nothing of what the text gave: tokens, tables,
operations and contracts are the front parts of the new ones. If the longer text is rejected, it is
for something in these lines.
-/

namespace StackEffect

theorem CheckState.run_faults {P : Location → Prop} {sym : Symbols} {st : CheckState}
    {ops : List Op} (hops : ∀ op ∈ ops, P op.loc) (index : Nat) :
    Faults (fun f => P f.loc) (run sym st index ops).2 :=
  fun f hf => (run_within quotable_true sym.allNames_true hops (fun _ _ _ _ => trivial) index f
    hf).loc

/-! ## Contracts behind others -/

namespace ContractTable

variable {opener : Nat} {contract : BlockContract} {table front later : ContractTable}

theorem insert_append (h : ∀ e ∈ front, e.1 < opener) :
    insert opener contract (front ++ later) = front ++ insert opener contract later := by
  induction front with
  | nil => rfl
  | cons e front ih =>
    obtain ⟨he, hfront⟩ := List.forall_mem_cons.mp h
    simp [insert, Nat.not_lt.mpr (Nat.le_of_lt he), Nat.ne_of_gt he, ih hfront]

theorem lt_of_mem_insert {bound : Nat} (hopener : opener < bound) (h : ∀ e ∈ table, e.1 < bound) :
    ∀ e ∈ insert opener contract table, e.1 < bound := by
  induction table with
  | nil => simpa [insert] using hopener
  | cons e table ih =>
    obtain ⟨he, htable⟩ := List.forall_mem_cons.mp h
    simp only [insert]
    split
    · exact List.forall_mem_cons.mpr ⟨hopener, h⟩
    · split
      · exact List.forall_mem_cons.mpr ⟨hopener, htable⟩
      · exact List.forall_mem_cons.mpr ⟨he, ih htable⟩

end ContractTable

namespace CheckState

/-- A pass over operations from one index up to another: the branches that are open belong to these
operations, and so do the contracts, which stand behind those recorded before. -/
structure Keyed (front : ContractTable) (low high : Nat) (st : CheckState) : Prop where
  branches : ∀ b ∈ st.branches, low ≤ b.opener ∧ b.opener < high
  contracts : ∃ later, st.contracts = front ++ later ∧ ∀ e ∈ later, e.1 < high

variable {front : ContractTable} {low k : Nat} {sym : Symbols} {st next last : CheckState} {op : Op}

theorem Keyed.record (h : Keyed front low k st) (hfront : ∀ e ∈ front, e.1 < low) {opener : Nat}
    (hlow : low ≤ opener) (hhigh : opener ≤ k) (contract : BlockContract) :
    ∃ later, ContractTable.insert opener contract st.contracts = front ++ later ∧
      ∀ e ∈ later, e.1 < k + 1 := by
  obtain ⟨later, hlater, hkeys⟩ := h.contracts
  refine ⟨ContractTable.insert opener contract later, ?_, ?_⟩
  · rw [hlater, ContractTable.insert_append fun e he => Nat.lt_of_lt_of_le (hfront e he) hlow]
  · exact ContractTable.lt_of_mem_insert (Nat.lt_succ_of_le hhigh)
      fun e he => Nat.lt_succ_of_lt (hkeys e he)

theorem Keyed.move (h : Keyed front low k st) (hfront : ∀ e ∈ front, e.1 < low) (hlow : low ≤ k)
    (hmove : Move sym k st op next) : Keyed front low (k + 1) next := by
  have hbranches : ∀ b ∈ st.branches, low ≤ b.opener ∧ b.opener < k + 1 := fun b hb =>
    ⟨(h.branches b hb).1, Nat.lt_succ_of_lt (h.branches b hb).2⟩
  have hcontracts : ∃ later, st.contracts = front ++ later ∧ ∀ e ∈ later, e.1 < k + 1 := by
    obtain ⟨later, hlater, hkeys⟩ := h.contracts
    exact ⟨later, hlater, fun e he => Nat.lt_succ_of_lt (hkeys e he)⟩
  cases hmove with
  | plain | bind | unbind | procEnd => exact ⟨hbranches, hcontracts⟩
  | ifBegin =>
    exact ⟨List.forall_mem_cons.mpr ⟨⟨hlow, Nat.lt_succ_self k⟩, hbranches⟩, hcontracts⟩
  | ifElse hc hb =>
    rw [hb] at hbranches
    exact ⟨List.forall_mem_cons.mpr (List.forall_mem_cons.mp hbranches), hcontracts⟩
  | ifEnd hc hb | elseEnd hc hb =>
    have hopener := (h.branches _ (by rw [hb]; exact List.mem_cons_self))
    rw [hb] at hbranches
    exact ⟨(List.forall_mem_cons.mp hbranches).2,
      h.record hfront hopener.1 (Nat.le_of_lt hopener.2) _⟩
  | procBegin => exact ⟨hbranches, h.record hfront hlow (Nat.le_refl k) _⟩

theorem Keyed.run (h : Keyed front low k st) (hfront : ∀ e ∈ front, e.1 < low) (hlow : low ≤ k)
    (hs : st.stack.Settled) {ops : List Op} (hrun : (run sym st k ops).2 = .ok last) :
    Keyed front low (k + ops.length) last ∧ last.stack.Settled := by
  induction ops generalizing st k with
  | nil =>
    cases hrun
    exact ⟨h, hs⟩
  | cons op ops ih =>
    cases hstep : st.step sym k op with
    | error f => simp [CheckState.run_cons_error hstep] at hrun
    | ok next =>
      rw [run_cons_ok hstep] at hrun
      have hmove := step_move hs hstep
      rw [List.length_cons, Nat.add_comm _ 1, ← Nat.add_assoc]
      exact ih (h.move hfront hlow hmove) (Nat.le_succ_of_le hlow) (hmove.settled hs) hrun

end CheckState

/-! ## Programs and their checks -/

/-- The check of a program that is properly nested ends outside of every procedure and branch. -/
theorem Program.Sound.outside {p : Program} (h : p.Sound) {last : CheckState}
    (hrun : (CheckState.run p.symbols {} 0 p.ops).2 = .ok last) :
    last.current = none ∧ last.branches = [] := by
  have htyped : ({} : CheckState).Typed p.symbols.structs.length := ⟨by simp, by simp, by simp⟩
  rcases CheckState.run_of_nestsAll h.tables h.nested h.ops .outside htyped (Int.le_refl 0) with
    ⟨last', hlast', haligned⟩ | ⟨f, hf, _⟩
  · obtain rfl : last' = last := Except.ok.inj (hlast'.symm.trans hrun)
    obtain ⟨hcurrent, _, hbranches⟩ := haligned.of_nil
    exact ⟨hcurrent, hbranches⟩
  · rw [hrun] at hf
    cases hf

theorem Program.Sound.ofProgram_eq {p : Program} (h : p.Sound) :
    Checked.ofProgram p = (CheckState.run p.symbols {} 0 p.ops).2.map fun last =>
      ⟨{ p with ops := (CheckState.run p.symbols {} 0 p.ops).1 }, last.contracts⟩ := by
  change ((CheckState.run p.symbols {} 0 p.ops).2.bind (·.finish p.symbols)).map _ = _
  cases hrun : (CheckState.run p.symbols {} 0 p.ops).2 with
  | error f => rfl
  | ok last => simp [Except.bind, CheckState.finish, (h.outside hrun).1, Except.map]

/-- What the check of operations in front recorded stays in front. -/
theorem CheckState.contracts_prefix_of_run {sym sym' : Symbols} {front ops : List Op}
    {last last' : CheckState} (hfront : (run sym {} 0 front).2 = .ok last)
    (hbranches : last.branches = []) (hrun : (run sym' last front.length ops).2 = .ok last') :
    last.contracts <+: last'.contracts := by
  have hstart : Keyed [] 0 0 ({} : CheckState) := ⟨by simp, [], rfl, by simp⟩
  obtain ⟨hkeyed, hs⟩ := hstart.run (by simp) (Nat.le_refl 0) (Int.le_refl 0) hfront
  obtain ⟨contracts, hcontracts, hkeys⟩ := hkeyed.contracts
  rw [List.nil_append] at hcontracts
  rw [Nat.zero_add, ← hcontracts] at hkeys
  have hnext : Keyed last.contracts front.length front.length last :=
    ⟨by simp [hbranches], [], (List.append_nil _).symm, by simp⟩
  obtain ⟨later, hlater, _⟩ := (hnext.run hkeys (Nat.le_refl _) hs hrun).1.contracts
  exact ⟨later, hlater.symm⟩

/-- Lines behind a text that is resolved add to its tables and operations, or are at fault. -/
theorem Program.ofSource_append_line {file as : String} {p : Program}
    (h : Program.ofSource file as = .ok p) (bs : String) :
    (∃ p' ops, Program.ofSource file (as ++ "\n" ++ bs) = .ok p' ∧
      p.strings.texts <+: p'.strings.texts ∧ p.symbols.IsPrefix p'.symbols ∧ p'.ops = p.ops ++ ops ∧
      ∀ op ∈ ops, as.utf8ByteSize + 1 ≤ op.loc.span.start) ∨
    ∃ f, Program.ofSource file (as ++ "\n" ++ bs) = .error f ∧
      as.utf8ByteSize + 1 ≤ f.loc.span.start := by
  obtain ⟨s, r, hs, hreaches, hblocks, rfl⟩ := Program.exists_reaches h
  rcases TokenStream.ofSource_append_line hs bs with
    ⟨new, eof, hnew, hplaces, heof⟩ | ⟨f, hf, hloc⟩
  · have hsound := hreaches.sound .empty
    have hlong := (hreaches.append hreaches hblocks eof new).run_eq
    rw [List.nil_append] at hlong
    simp only [Program.ofSource, hnew, ok_bind, Program.ofTokens, hlong]
    cases hrun : Resolution.run eof 0 r new with
    | error f =>
      have hfault := hsound.run_faults (P := fun loc => as.utf8ByteSize + 1 ≤ loc.span.start)
        quotable_true heof r.symbols.allNames_true (fun t ht => ⟨hplaces t ht, fun _ _ => trivial⟩)
        0 f hrun
      exact .inr ⟨f, rfl, hfault.loc⟩
    | ok r' =>
      cases hopen : r'.code.blocks with
      | cons b blocks => exact .inr ⟨_, by simp [Code.finish, hopen]; rfl, heof⟩
      | nil =>
        have hnext := Resolution.reaches_of_run hrun
        have hcurrent := (hblocks ▸ hsound.within).eq_none_of_nil
        have hcurrent' := (hopen ▸ (hnext.sound hsound).within).eq_none_of_nil
        obtain ⟨hstrings, hsymbols⟩ := hnext.continues
        rw [Resolution.settled_eq_symbols hcurrent, Resolution.settled_eq_symbols hcurrent']
          at hsymbols
        obtain ⟨ops, hops, hlocs⟩ := hnext.ops
        refine .inl ⟨⟨r'.strings, r'.symbols, r'.code.ops⟩, ops, by simp [Code.finish, hopen],
          hstrings, hsymbols, hops, fun op hop => ?_⟩
        obtain ⟨t, ht, hloc⟩ := hlocs op hop
        rw [hloc]
        exact hplaces t ht
  · refine .inr ⟨f, ?_, hloc⟩
    simp only [Program.ofSource, hf, error_bind]

structure Checked.IsPrefix (c c' : Checked) : Prop where
  ops : c.program.ops <+: c'.program.ops
  contracts : c.contracts <+: c'.contracts
  symbols : c.program.symbols.IsPrefix c'.program.symbols
  strings : c.program.strings.texts <+: c'.program.strings.texts

/-- Adding lines behind a text that is accepted changes nothing of what it gave. Either the longer
text is accepted, and its operations, contracts, tables and strings begin with those of the text, or
it is rejected for something at or behind the start of these lines. -/
theorem added_lines_keep_what_came_before (file as bs : String) (c : Checked)
    (h : Checked.ofSource file as = .ok c) :
    (∃ c', Checked.ofSource file (as ++ "\n" ++ bs) = .ok c' ∧ c.IsPrefix c') ∨
      ∃ f, Checked.ofSource file (as ++ "\n" ++ bs) = .error f ∧
        as.utf8ByteSize + 1 ≤ f.loc.span.start := by
  obtain ⟨p, hp, hc⟩ := bind_eq_ok h
  have hsound := Program.sound_of_source hp
  rw [hsound.ofProgram_eq] at hc
  obtain ⟨last, hrun, rfl⟩ := map_eq_ok hc
  rcases Program.ofSource_append_line hp bs with
    ⟨p', ops, hp', hstrings, hsymbols, hops, hplaces⟩ | ⟨f, hf, hloc⟩
  · have hsame := CheckState.run_eq_of_isPrefix hsymbols hrun
    have hlong : CheckState.run p'.symbols {} 0 p'.ops =
        ((CheckState.run p.symbols {} 0 p.ops).1 ++
          (CheckState.run p'.symbols last p.ops.length ops).1,
        (CheckState.run p'.symbols last p.ops.length ops).2) := by
      rw [hops, CheckState.run_append_ok (hsame ▸ hrun), hsame, Nat.zero_add]
    simp only [Checked.ofSource, hp', ok_bind, (Program.sound_of_source hp').ofProgram_eq, hlong]
    cases hrest : (CheckState.run p'.symbols last p.ops.length ops).2 with
    | error f =>
      have hloc := CheckState.run_faults (P := fun loc => as.utf8ByteSize + 1 ≤ loc.span.start)
        hplaces p.ops.length f hrest
      exact .inr ⟨f, rfl, hloc⟩
    | ok last' =>
      refine .inl ⟨_, rfl, List.prefix_append _ _, ?_, hsymbols, hstrings⟩
      exact CheckState.contracts_prefix_of_run hrun (hsound.outside hrun).2 hrest
  · refine .inr ⟨f, ?_, hloc⟩
    simp only [Checked.ofSource, hf, error_bind]

def frontText : String :=
  "p struct x int end f :: int -> int let a : a 0 > if a else \"s\" drop end end end"

def addedText : String :=
  "g :: p -> int .x f \"t\" drop drop end"

theorem added_text_keeps_front_text :
    ∃ c c', Checked.ofSource "front" frontText = .ok c ∧
      Checked.ofSource "front" (frontText ++ "\n" ++ addedText) = .ok c' ∧ c.IsPrefix c' := by
  have hok : (Checked.ofSource "front" frontText).toOption.isSome := by decide +kernel
  have hlong : (Checked.ofSource "front" (frontText ++ "\n" ++ addedText)).toOption.isSome := by
    decide +kernel
  cases hc : Checked.ofSource "front" frontText with
  | error f =>
    rw [hc] at hok
    cases hok
  | ok c =>
    rcases added_lines_keep_what_came_before "front" frontText addedText c hc with
      ⟨c', hc', h⟩ | ⟨f, hf, _⟩
    · exact ⟨c, c', rfl, hc', h⟩
    · rw [hf] at hlong
      cases hlong

end StackEffect
