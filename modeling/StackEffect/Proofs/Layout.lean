import StackEffect.Proofs.Growth
import StackEffect.Proofs.Lexing
import StackEffect.Proofs.Nesting

/-! # The layout of resolved programs

A resolved program is a row of whole procedures in the order of their numbers. In a body, blocks
stand whole inside each other, and what continues or closes a block names the index of the operation
that opened it. While resolution is under way, the blocks it keeps open are cut off at the end of
the list.
-/

namespace StackEffect

/-- The operations of a body, the first of which has a given index: plain operations and whole
blocks, one behind the other. -/
inductive Body : Nat → List Op → Prop
  | nil {start : Nat} : Body start []
  | plain {start : Nat} {ops : List Op} {op : Op} (h : Body start ops) (hk : op.kind.isPlain) :
      Body start (ops ++ [op])
  | bareIf {start : Nat} {ops body : List Op} {opened closed : Location} (h : Body start ops)
      (hbody : Body (start + ops.length + 1) body) :
      Body start (ops ++ ⟨.ifBegin, opened⟩ :: body ++ [⟨.ifEnd (start + ops.length), closed⟩])
  | ifElse {start : Nat} {ops thens elses : List Op} {opened continued closed : Location}
      (h : Body start ops) (hthens : Body (start + ops.length + 1) thens)
      (helses : Body (start + ops.length + thens.length + 2) elses) :
      Body start (ops ++ ⟨.ifBegin, opened⟩ :: thens ++
        ⟨.ifElse (start + ops.length), continued⟩ :: elses ++
        [⟨.elseEnd (start + ops.length), closed⟩])
  | scope {start count : Nat} {ops body : List Op} {opened closed : Location} (h : Body start ops)
      (hcount : 1 ≤ count) (hbody : Body (start + ops.length + 1) body) :
      Body start (ops ++ ⟨.bind count, opened⟩ :: body ++ [⟨.unbind count, closed⟩])

inductive Procedures : List Procedure → List Op → Prop
  | nil : Procedures [] []
  | snoc {procs : List Procedure} {p : Procedure} {ops body : List Op} {opened closed : Location}
      (h : Procedures procs ops) (hbody : Body (ops.length + 1) body) :
      Procedures (procs ++ [p]) (ops ++ ⟨.procBegin procs.length, opened⟩ :: body ++
        [⟨.procEnd procs.length p.memory.size, closed⟩])

theorem Body.plains {start : Nat} {ops : List Op} (h : Body start ops) {kinds : List OpKind}
    (hkinds : ∀ kind ∈ kinds, kind.isPlain) (loc : Location) :
    Body start (ops ++ kinds.map (⟨·, loc⟩)) := by
  induction kinds generalizing ops with
  | nil => simpa using h
  | cons kind kinds ih =>
    obtain ⟨hkind, hkinds⟩ := List.forall_mem_cons.mp hkinds
    have hplain : Body start (ops ++ [⟨kind, loc⟩]) := h.plain hkind
    have hnext := ih hplain hkinds
    rwa [List.append_assoc] at hnext

/-- The operations of an open block up to the start of the body that is under way, where the first
of them has a given index. -/
inductive Head (index : Nat) : Block → List Op → Prop
  | ifBlock {b : Block} {loc : Location} (hk : b.kind = .ifBlock) (hopener : b.opener = index) :
      Head index b [⟨.ifBegin, loc⟩]
  | elseBlock {b : Block} {thens : List Op} {opened continued : Location} (hk : b.kind = .elseBlock)
      (hopener : b.opener = index) (hthens : Body (index + 1) thens) :
      Head index b (⟨.ifBegin, opened⟩ :: thens ++ [⟨.ifElse index, continued⟩])
  | letBlock {b : Block} {count : Nat} {loc : Location} (hk : b.kind = .letBlock count)
      (hcount : 1 ≤ count) : Head index b [⟨.bind count, loc⟩]

/-- Whole procedures, and behind them a body with the blocks in it that are open, innermost first.
-/
inductive Layout (procs : List Procedure) : List Block → List Op → Prop
  | outside {ops : List Op} (h : Procedures procs ops) : Layout procs [] ops
  | body {b : Block} {ops body : List Op} {loc : Location} (h : Procedures procs ops)
      (hk : b.kind = .procBlock procs.length) (hbody : Body (ops.length + 1) body) :
      Layout procs [b] (ops ++ [⟨.procBegin procs.length, loc⟩] ++ body)
  | inner {b : Block} {blocks : List Block} {ops head body : List Op} (h : Layout procs blocks ops)
      (hin : blocks ≠ []) (hhead : Head ops.length b head)
      (hbody : Body (ops.length + head.length) body) : Layout procs (b :: blocks) (ops ++ head ++ body)

namespace Layout

variable {procs : List Procedure} {b : Block} {blocks : List Block} {ops : List Op}

/-- The innermost block ends with a body, which may go on. -/
theorem exists_body (h : Layout procs blocks ops) (hin : blocks ≠ []) :
    ∃ front body, ops = front ++ body ∧ Body front.length body ∧
      ∀ more, Body front.length (body ++ more) → Layout procs blocks (ops ++ more) := by
  cases h with
  | outside => exact absurd rfl hin
  | @body b ops body loc h hk hbody =>
    refine ⟨_, body, rfl, by simpa using hbody, fun more hmore => ?_⟩
    rw [List.append_assoc]
    exact .body h hk (by simpa using hmore)
  | @inner b blocks ops head body h houter hhead hbody =>
    refine ⟨_, body, rfl, by simpa using hbody, fun more hmore => ?_⟩
    rw [List.append_assoc]
    exact .inner h houter hhead (by simpa using hmore)

theorem plains (h : Layout procs blocks ops) (hin : blocks ≠ []) {kinds : List OpKind}
    (hkinds : ∀ kind ∈ kinds, kind.isPlain) (loc : Location) :
    Layout procs blocks (ops ++ kinds.map (⟨·, loc⟩)) := by
  obtain ⟨front, body, _, hbody, hmore⟩ := h.exists_body hin
  exact hmore _ (hbody.plains hkinds loc)

theorem open_head (h : Layout procs blocks ops) (hin : blocks ≠ []) {head : List Op}
    (hhead : Head ops.length b head) : Layout procs (b :: blocks) (ops ++ head) := by
  have hopened := Layout.inner h hin hhead .nil
  rwa [List.append_nil] at hopened

/-- The head and the body of the innermost block, when it is not that of a procedure. -/
theorem exists_head (h : Layout procs (b :: blocks) ops) (hk : ∀ id, b.kind ≠ .procBlock id) :
    ∃ before head body, ops = before ++ head ++ body ∧ Layout procs blocks before ∧ blocks ≠ [] ∧
      Head before.length b head ∧ Body (before.length + head.length) body := by
  cases h with
  | body _ hproc => exact absurd hproc (hk _)
  | inner h hin hhead hbody => exact ⟨_, _, _, rfl, h, hin, hhead, hbody⟩

/-- An `if` that has not met its `else` may go on with it, or end. -/
theorem of_then (h : Layout procs (b :: blocks) ops) (hk : b.kind = .ifBlock) (loc : Location) :
    Layout procs (⟨.elseBlock, b.opener, loc⟩ :: blocks) (ops ++ [⟨.ifElse b.opener, loc⟩]) ∧
      Layout procs blocks (ops ++ [⟨.ifEnd b.opener, loc⟩]) := by
  obtain ⟨before, head, body, rfl, hbefore, hin, hhead, hbody⟩ := h.exists_head (by simp [hk])
  cases hhead with
  | elseBlock hother | letBlock hother =>
    rw [hk] at hother
    cases hother
  | ifBlock _ hopener =>
    rw [hopener]
    constructor
    · rw [List.append_assoc, List.append_assoc]
      exact hbefore.open_head hin (.elseBlock rfl rfl hbody)
    · obtain ⟨front, inner, rfl, hinner, hmore⟩ := hbefore.exists_body hin
      rw [List.append_assoc, List.append_assoc]
      apply hmore
      simp only [List.length_append, List.length_cons, List.length_nil] at hbody ⊢
      simpa using hinner.bareIf hbody

/-- An `if` that has met its `else` may end. -/
theorem of_else (h : Layout procs (b :: blocks) ops) (hk : b.kind = .elseBlock) (loc : Location) :
    Layout procs blocks (ops ++ [⟨.elseEnd b.opener, loc⟩]) := by
  obtain ⟨before, head, elses, rfl, hbefore, hin, hhead, helses⟩ := h.exists_head (by simp [hk])
  cases hhead with
  | ifBlock hother | letBlock hother =>
    rw [hk] at hother
    cases hother
  | elseBlock _ hopener hthens =>
    rw [hopener]
    obtain ⟨front, inner, rfl, hinner, hmore⟩ := hbefore.exists_body hin
    rw [List.append_assoc, List.append_assoc]
    apply hmore
    simp only [List.length_append, List.length_cons, List.length_nil] at hthens helses ⊢
    simpa using hinner.ifElse hthens helses

/-- A `let` may end. -/
theorem of_let (h : Layout procs (b :: blocks) ops) {count : Nat} (hk : b.kind = .letBlock count)
    (loc : Location) : Layout procs blocks (ops ++ [⟨.unbind count, loc⟩]) := by
  obtain ⟨before, head, body, rfl, hbefore, hin, hhead, hbody⟩ := h.exists_head (by simp [hk])
  cases hhead with
  | ifBlock hother | elseBlock hother =>
    rw [hk] at hother
    cases hother
  | letBlock hother hcount =>
    rw [hk] at hother
    cases hother
    obtain ⟨front, inner, rfl, hinner, hmore⟩ := hbefore.exists_body hin
    rw [List.append_assoc, List.append_assoc]
    apply hmore
    simp only [List.length_append, List.length_cons, List.length_nil] at hbody
    simpa using hinner.scope hcount hbody

/-- A procedure may end. -/
theorem of_body (h : Layout procs [b] ops) {id : Nat} (hk : b.kind = .procBlock id)
    (p : Procedure) (loc : Location) :
    Procedures (procs ++ [p]) (ops ++ [⟨.procEnd id p.memory.size, loc⟩]) := by
  cases h with
  | inner _ hin => exact absurd rfl hin
  | body h hother hbody =>
    rw [hk] at hother
    cases hother
    rw [List.append_assoc _ [_], List.singleton_append]
    exact h.snoc hbody

end Layout

theorem Value.plain_of_pushes (v : Value) : ∀ kind ∈ v.pushes, kind.isPlain := by
  cases hty : v.ty <;> simp [pushes, hty, OpKind.isPlain]

namespace Resolution

/-- The code at a point of a resolution is laid out, and the procedure whose body is being read is
the latest. -/
structure LaidOut (r : Resolution) : Prop where
  layout : Layout r.settled.procs r.code.blocks r.code.ops
  latest : ∀ id, r.current = some id → r.symbols.procs.length = id + 1

variable {r r' : Resolution} {eof : Location} {t : Token} {rest : List Token} {used : Nat}

theorem LaidOut.empty : LaidOut {} :=
  ⟨.outside .nil, by simp⟩

/-- A step that keeps the procedures and their number. -/
theorem LaidOut.keep (h : LaidOut r) (hprocs : r'.settled.procs = r.settled.procs)
    (hcount : r'.symbols.procs.length = r.symbols.procs.length) (hcurrent : r'.current = r.current)
    (hlayout : Layout r.settled.procs r'.code.blocks r'.code.ops) : LaidOut r' where
  layout := by rwa [hprocs]
  latest id hid := by
    rw [hcurrent] at hid
    rw [hcount]
    exact h.latest id hid

/-- All procedures but the one whose body is being read are settled. -/
theorem LaidOut.procs_eq (h : LaidOut r) {id : Nat} {p : Procedure} (hid : r.current = some id)
    (hp : r.symbols.procs[id]? = some p) : r.symbols.procs = r.settled.procs ++ [p] := by
  simp only [settled, hid, Option.elim_some]
  rw [← Option.toList_some, ← hp, ← List.take_add_one, ← h.latest id hid, List.take_length]

theorem LaidOut.declareProc (h : LaidOut r) (hsound : Sound r) {name : String} {loc : Location}
    (hr : r.declareProc name loc rest = .ok (r', used)) : LaidOut r' := by
  obtain ⟨hnone, p, _, _, _, _, _, rfl⟩ := declareProc_eq_ok hr
  have hcurrent := hsound.current_eq_none hnone
  have hblocks : r.code.blocks = [] := Within.eq_nil_of_none (hcurrent ▸ hsound.within)
  have hlayout := h.layout
  rw [settled_eq_symbols hcurrent, hblocks] at hlayout
  refine ⟨?_, ?_⟩
  · have hprocs : (r.symbols.procs ++ [p]).take r.symbols.procs.length = r.symbols.procs :=
      List.take_left
    simp only [settled, Symbols.addProc, Option.elim_some, hprocs, Code.openBlock, Code.emit,
      hblocks]
    cases hlayout with
    | outside hdone => simpa using Layout.body hdone rfl .nil
  · rintro _ ⟨rfl⟩
    simp [Symbols.addProc]

theorem LaidOut.closeProc (h : LaidOut r) (hsound : Sound r) {b : Block} {blocks : List Block}
    {id : Nat} (hb : r.code.blocks = b :: blocks) (hk : b.kind = .procBlock id) (loc : Location) :
    LaidOut { r with
      code := ⟨r.code.ops ++
        [⟨.procEnd id ((r.symbols.procs[id]?).elim 0 (·.memory.size)), loc⟩], blocks⟩
      current := none } := by
  have hwithin := hb ▸ hsound.within
  obtain rfl := hwithin.eq_nil hk
  have hid := hwithin.current_eq hk
  obtain ⟨p, hp, _⟩ := hsound.current id hid
  have hprocs := h.procs_eq hid hp
  have hlayout := h.layout
  rw [hb] at hlayout
  refine ⟨.outside ?_, by simp⟩
  simp only [settled, Option.elim_none, hp, Option.elim_some]
  rw [hprocs]
  exact hlayout.of_body hk p loc

/-- Every move of resolution keeps the code laid out. -/
theorem LaidOut.move (h : LaidOut r) (hsound : Sound r) (hmove : Move eof r t rest r' used) :
    LaidOut r' := by
  have hin (hc : r.current ≠ none) : r.code.blocks ≠ [] := hsound.within.ne_nil hc
  have hinside {id : Nat} {p : Procedure} (hp : r.procedure? = some (id, p)) :
      r.code.blocks ≠ [] := hin (by simp [(procedure?_eq_some.mp hp).1])
  cases hmove with
  | literal ht hp =>
    exact h.keep rfl rfl rfl (h.layout.plains (hinside hp) (Value.plain_of_pushes _) t.loc)
  | string ht hp =>
    exact h.keep rfl rfl rfl (h.layout.plains (hinside hp) (List.forall_mem_singleton.mpr rfl) t.loc)
  | word ht hm hc =>
    exact h.keep rfl rfl rfl (h.layout.plains (hin hc) (fun kind hkind =>
      (usable_of_lookup hsound.tables hm kind hkind).plain) t.loc)
  | openIf ht hp =>
    exact h.keep rfl rfl rfl (h.layout.open_head (hinside hp) (.ifBlock rfl rfl))
  | openElse ht hb hk =>
    have hlayout := hb ▸ h.layout
    exact h.keep rfl rfl rfl (hlayout.of_then hk t.loc).1
  | openLet ht hp hnames hne =>
    have hadds := Adds.setProcedure "" (procedure?_eq_some.mp hp).1
    exact h.keep (hadds _).procs (hadds _).count rfl (h.layout.open_head (hinside hp)
      (.letBlock rfl (List.length_pos_iff.mpr hne)))
  | closeIf ht hb hk =>
    have hlayout := hb ▸ h.layout
    exact h.keep rfl rfl rfl (hlayout.of_then hk t.loc).2
  | closeElse ht hb hk =>
    have hlayout := hb ▸ h.layout
    exact h.keep rfl rfl rfl (hlayout.of_else hk t.loc)
  | closeLet ht hb hk hp hcount =>
    have hadds := Adds.setProcedure "" (procedure?_eq_some.mp hp).1
    have hlayout := hb ▸ h.layout
    exact h.keep (hadds _).procs (hadds _).count rfl (hlayout.of_let hk t.loc)
  | closeProc ht hb hk => exact h.closeProc hsound hb hk t.loc
  | declare ht hm hs hshape hproc hr =>
    have hadds := declareShape_adds hproc hr
    exact h.keep hadds.procs hadds.count hadds.current (by rw [hadds.code]; exact h.layout)
  | declareProc ht hm hs hshape hr => exact h.declareProc hsound hr

theorem Reaches.laidOut {start : Resolution} {ts : List Token} (h : Reaches eof start ts r rest)
    (hsound : Sound start) (hstart : LaidOut start) : LaidOut r := by
  induction h with
  | start => exact hstart
  | step h hstep ih => exact ih.move (h.sound hsound) (step_move hstep)

/-- Operations are emitted in the order of their places, all of them before the places of the tokens
that are still to be read. -/
theorem Reaches.ordered {ts : List Token} (h : Reaches eof {} ts r rest)
    (hts : ts.Pairwise (·.loc.span.start < ·.loc.span.start)) :
    r.code.ops.Pairwise (·.loc.span.start ≤ ·.loc.span.start) ∧
      ∀ op ∈ r.code.ops, ∀ u ∈ rest, op.loc.span.start ≤ u.loc.span.start := by
  induction h with
  | start => simp
  | @step r r' t rest used h hstep ih =>
    obtain ⟨hsorted, hbefore⟩ := ih
    obtain ⟨kinds, hops⟩ := (step_move hstep).continues.ops
    have hlater := (List.pairwise_cons.mp (hts.sublist h.suffix.sublist)).1
    rw [hops]
    refine ⟨List.pairwise_append.mpr ⟨hsorted, ?_, ?_⟩, ?_⟩
    · exact List.pairwise_map.mpr (List.pairwise_of_forall fun _ _ => Nat.le_refl _)
    · intro op hop new hnew
      obtain ⟨kind, _, rfl⟩ := List.mem_map.mp hnew
      exact hbefore op hop t List.mem_cons_self
    · intro op hop u hu
      have hu' := List.mem_of_mem_drop hu
      rcases List.mem_append.mp hop with hop | hop
      · exact hbefore op hop u (List.mem_cons_of_mem t hu')
      · obtain ⟨kind, _, rfl⟩ := List.mem_map.mp hop
        exact Nat.le_of_lt (hlater u hu')

end Resolution

/-- The operations of a resolved program are those of its procedures, in order. Each procedure is
whole, with its blocks whole inside each other, and ends with the size of its frame. The places of
the operations never go back in the text. -/
theorem resolved_programs_are_laid_out (file source : String) (p : Program)
    (h : Program.ofSource file source = .ok p) :
    Procedures p.symbols.procs p.ops ∧
      p.ops.Pairwise (·.loc.span.start ≤ ·.loc.span.start) := by
  obtain ⟨s, r, hs, hreaches, hblocks, rfl⟩ := Program.exists_reaches h
  have hlayout := (hreaches.laidOut .empty .empty).layout
  have hwithin := (hreaches.sound .empty).within
  rw [hblocks] at hlayout hwithin
  rw [Resolution.settled_eq_symbols hwithin.eq_none_of_nil] at hlayout
  refine ⟨?_, (hreaches.ordered (TokenStream.pairwise_tokens hs)).1⟩
  cases hlayout with
  | outside hprocs => exact hprocs

def pairedText : String :=
  "f :: int -> int cell : 5 end let x : x 0 > if x let y : y 1 + end else true if end 0 end end end" ++
    " g :: 1 f drop true if end end"

theorem paired_text_is_laid_out :
    ∃ p, Program.ofSource "paired" pairedText = .ok p ∧ Procedures p.symbols.procs p.ops ∧
      p.ops.Pairwise (·.loc.span.start ≤ ·.loc.span.start) := by
  have hok : (Program.ofSource "paired" pairedText).toOption.isSome := by decide +kernel
  cases h : Program.ofSource "paired" pairedText with
  | error f =>
    rw [h] at hok
    cases hok
  | ok p => exact ⟨p, rfl, resolved_programs_are_laid_out "paired" pairedText p h⟩

end StackEffect
