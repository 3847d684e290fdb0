import StackEffect.Proofs.Agreement
import StackEffect.Proofs.Faults
import StackEffect.Proofs.Layout

/-! # The scope of names

Names are bound by `let` up to the `end` of its block. Resolution keeps the bound names in one list,
and the checker keeps the types of the values that they stand for in another. Here both lists are
read off the blocks that are open: each `let` contributes the names written behind it, and the
values that were on top of the stack in front of it. So a word that is a bound name stands for the
value that the innermost `let` with this name took for it.
-/

namespace StackEffect

/-- The names that a block binds: those between its `let` and the next colon. -/
def Block.names (ts : List Token) (b : Block) : List String :=
  match b.kind with
  | .letBlock _ =>
    (((ts.dropWhile (·.loc != b.loc)).drop 1).takeWhile (! ·.isColon)).filterMap (·.kind.word?)
  | .ifBlock | .elseBlock | .procBlock _ => []

theorem Block.names_eq_nil {b : Block} (hk : ∀ count, b.kind ≠ .letBlock count) (ts : List Token) :
    b.names ts = [] := by
  cases hkind : b.kind with
  | letBlock count => exact absurd hkind (hk count)
  | ifBlock | elseBlock | procBlock => simp [Block.names, hkind]

theorem eq_of_letNames {loc eof : Location} {before names : List String} {ts : List Token}
    (h : letNames loc eof before ts = .ok names) :
    names = before ++ (ts.takeWhile (! ·.isColon)).filterMap (·.kind.word?) := by
  induction ts generalizing before with
  | nil => cases h
  | cons t ts ih =>
    unfold letNames at h
    split at h
    · rename_i hk
      cases h
      simp [Token.isColon, hk]
    · rename_i name hk
      rw [ih h]
      simp [Token.isColon, hk, TokenKind.word?]
    · cases h

/-- Places tell the tokens of a text apart. -/
theorem dropWhile_of_suffix {ts rest : List Token} {t : Token}
    (hts : ts.Pairwise (·.loc.span.start < ·.loc.span.start)) (h : t :: rest <:+ ts) :
    ts.dropWhile (·.loc != t.loc) = t :: rest := by
  obtain ⟨front, rfl⟩ := h
  have hfront : ∀ u ∈ front, (u.loc != t.loc) = true := by
    intro u hu
    have hlt := (List.pairwise_append.mp hts).2.2 u hu t List.mem_cons_self
    simp only [bne_iff_ne]
    intro heq
    rw [heq] at hlt
    exact Nat.lt_irrefl _ hlt
  rw [List.dropWhile_append_of_pos hfront]
  simp

namespace Resolution

def boundNames (r : Resolution) : List String :=
  r.procedure?.elim [] (·.2.bindings)

theorem length_boundNames (r : Resolution) : r.boundNames.length = r.names := by
  unfold boundNames names
  cases r.procedure? <;> rfl

theorem boundNames_eq {r : Resolution} {id : Nat} {p : Procedure}
    (hp : r.procedure? = some (id, p)) : r.boundNames = p.bindings := by
  simp [boundNames, hp]

theorem boundNames_setProcedure {r : Resolution} {id : Nat} {p : Procedure}
    (hp : r.procedure? = some (id, p)) (p' : Procedure) (code : Code) :
    boundNames { r.setProcedure id p' with code := code } = p'.bindings := by
  obtain ⟨hid, hget⟩ := procedure?_eq_some.mp hp
  simp [boundNames, procedure?, setProcedure, Symbols.modifyProc, hid, hget]

/-- Open blocks, each `let` among which was opened at a point where those around it were open. -/
inductive Opened (eof : Location) (ts : List Token) : List Block → Prop
  | nil : Opened eof ts []
  | other {b : Block} {blocks : List Block} (hk : ∀ count, b.kind ≠ .letBlock count)
      (h : Opened eof ts blocks) : Opened eof ts (b :: blocks)
  | scope {b : Block} {blocks : List Block} {r : Resolution} {t : Token} {rest : List Token}
      (hr : Reaches eof {} ts r (t :: rest)) (ht : t.kind = .keyword .letKw) (hloc : t.loc = b.loc)
      (hopener : r.code.ops.length = b.opener) (hblocks : r.code.blocks = blocks)
      (h : Opened eof ts blocks) : Opened eof ts (b :: blocks)

theorem Opened.tail {eof : Location} {ts : List Token} {b : Block} {blocks : List Block}
    (h : Opened eof ts (b :: blocks)) : Opened eof ts blocks := by
  cases h with
  | other hk h => exact h
  | scope hr ht hloc hopener hblocks h => exact h

theorem Opened.of_append {eof : Location} {ts : List Token} {inner blocks : List Block}
    (h : Opened eof ts (inner ++ blocks)) : Opened eof ts blocks := by
  induction inner with
  | nil => exact h
  | cons b inner ih => exact ih h.tail

theorem Opened.append {eof : Location} {ts : List Token} {inner blocks : List Block}
    (h : Opened eof ts blocks) (hk : ∀ b ∈ inner, ∀ count, b.kind ≠ .letBlock count) :
    Opened eof ts (inner ++ blocks) := by
  induction inner with
  | nil => exact h
  | cons b inner ih =>
    obtain ⟨hb, hinner⟩ := List.forall_mem_cons.mp hk
    exact .other hb (ih hinner)

/-- The names bound at a point of a resolution are those of the open blocks, outermost first, and
none are bound in procedures that are closed. -/
structure Scoped (eof : Location) (ts : List Token) (r : Resolution) : Prop where
  names : r.boundNames = r.code.blocks.reverse.flatMap (Block.names ts)
  counts : ∀ b ∈ r.code.blocks, ∀ count, b.kind = .letBlock count → (b.names ts).length = count
  opened : Opened eof ts r.code.blocks
  closed : ∀ p ∈ r.settled.procs, p.bindings = []

variable {r r' : Resolution} {eof : Location} {ts rest : List Token} {t : Token} {used : Nat}

theorem Scoped.empty (eof : Location) (ts : List Token) : Scoped eof ts {} :=
  ⟨rfl, by simp, .nil, by simp [settled]⟩

/-- A step that keeps the names and replaces only blocks that bind none. -/
theorem Scoped.reshape (h : Scoped eof ts r) (before after : List Block) {blocks : List Block}
    (hbefore : r.code.blocks = before ++ blocks) (hafter : r'.code.blocks = after ++ blocks)
    (hnone : ∀ b ∈ before ++ after, ∀ count, b.kind ≠ .letBlock count)
    (hnames : r'.boundNames = r.boundNames) (hprocs : r'.settled.procs = r.settled.procs) :
    Scoped eof ts r' := by
  obtain ⟨hb, ha⟩ := List.forall_mem_append.mp hnone
  have hnil {part : List Block} (hpart : ∀ b ∈ part, ∀ count, b.kind ≠ .letBlock count) :
      part.reverse.flatMap (Block.names ts) = [] :=
    List.flatMap_eq_nil_iff.mpr fun b hb => Block.names_eq_nil (hpart b (List.mem_reverse.mp hb)) ts
  have hopened := h.opened
  rw [hbefore] at hopened
  refine ⟨?_, ?_, ?_, ?_⟩
  · rw [hnames, h.names, hbefore, hafter, List.reverse_append, List.reverse_append,
      List.flatMap_append, List.flatMap_append, hnil hb, hnil ha]
  · intro b hmem count hk
    rw [hafter] at hmem
    rcases List.mem_append.mp hmem with hmem | hmem
    · exact absurd hk (ha b hmem count)
    · exact h.counts b (by rw [hbefore]; exact List.mem_append_right _ hmem) count hk
  · rw [hafter]
    exact hopened.of_append.append ha
  · rw [hprocs]
    exact h.closed

/-- A `let` binds the names behind it. -/
theorem Scoped.openLet (h : Scoped eof ts r) (hr : Reaches eof {} ts r (t :: rest))
    (hts : ts.Pairwise (·.loc.span.start < ·.loc.span.start)) (ht : t.kind = .keyword .letKw)
    {id : Nat} {p : Procedure} {names : List String} (hp : r.procedure? = some (id, p))
    (hnames : letNames t.loc eof [] rest = .ok names) :
    Scoped eof ts { r.setProcedure id { p with bindings := p.bindings ++ names } with
      code := r.code.openBlock (.letBlock names.length) (.bind names.length) t.loc } := by
  have hblock : (⟨.letBlock names.length, r.code.ops.length, t.loc⟩ : Block).names ts = names := by
    simp only [Block.names, dropWhile_of_suffix hts hr.suffix, List.drop_succ_cons, List.drop_zero]
    simpa using (eq_of_letNames hnames).symm
  refine ⟨?_, ?_, .scope hr ht rfl rfl rfl h.opened, fun q hq => h.closed q ?_⟩
  · rw [boundNames_setProcedure hp, ← boundNames_eq hp, h.names]
    simp [Code.openBlock, hblock]
  · refine List.forall_mem_cons.mpr ⟨?_, h.counts⟩
    rintro _ ⟨rfl⟩
    rw [hblock]
  · exact (Adds.setProcedure "" (procedure?_eq_some.mp hp).1 _).procs ▸ hq

/-- The end of a `let` takes back the names behind it. -/
theorem Scoped.closeLet (h : Scoped eof ts r) {b : Block} {blocks : List Block} {count id : Nat}
    {p : Procedure} (hb : r.code.blocks = b :: blocks) (hk : b.kind = .letBlock count)
    (hp : r.procedure? = some (id, p)) (op : Op) :
    Scoped eof ts { r.setProcedure id
        { p with bindings := p.bindings.take (p.bindings.length - count) } with
      code := ⟨r.code.ops ++ [op], blocks⟩ } := by
  have hcounts := h.counts
  have hnames := h.names
  have hopened := h.opened
  rw [hb] at hcounts hnames hopened
  obtain ⟨hcount, hcounts⟩ := List.forall_mem_cons.mp hcounts
  refine ⟨?_, hcounts, hopened.tail, fun q hq => h.closed q ?_⟩
  · rw [boundNames_setProcedure hp, ← hcount count hk, ← boundNames_eq hp, hnames]
    simp
  · exact (Adds.setProcedure "" (procedure?_eq_some.mp hp).1 _).procs ▸ hq

theorem Scoped.closeProc (h : Scoped eof ts r) (hsound : Sound r) (hlaid : LaidOut r) {b : Block}
    {blocks : List Block} {id : Nat} (hb : r.code.blocks = b :: blocks) (hk : b.kind = .procBlock id)
    (op : Op) :
    Scoped eof ts { r with code := ⟨r.code.ops ++ [op], blocks⟩, current := none } := by
  have hwithin := hb ▸ hsound.within
  obtain rfl := hwithin.eq_nil hk
  have hid := hwithin.current_eq hk
  obtain ⟨p, hp, _⟩ := hsound.current id hid
  refine ⟨rfl, by simp, .nil, ?_⟩
  change ∀ q ∈ r.symbols.procs, q.bindings = []
  rw [hlaid.procs_eq hid hp]
  refine List.forall_mem_append.mpr ⟨h.closed, List.forall_mem_singleton.mpr ?_⟩
  rw [← boundNames_eq (procedure?_eq_some.mpr ⟨hid, hp⟩), h.names, hb]
  simp [Block.names_eq_nil (b := b) (by simp [hk])]

theorem Scoped.declareProc (h : Scoped eof ts r) (hsound : Sound r) {name : String}
    {loc : Location} (hr : r.declareProc name loc rest = .ok (r', used)) : Scoped eof ts r' := by
  obtain ⟨hnone, p, _, _, hblank, _, _, rfl⟩ := declareProc_eq_ok hr
  have hcurrent := hsound.current_eq_none hnone
  have hblocks : r.code.blocks = [] := Within.eq_nil_of_none (hcurrent ▸ hsound.within)
  have hclosed := h.closed
  rw [settled_eq_symbols hcurrent] at hclosed
  refine ⟨?_, ?_, ?_, ?_⟩
  · simp [boundNames, procedure?, Symbols.addProc, Code.openBlock, hblocks, hblank.bindings,
      Block.names]
  · simp [Code.openBlock, hblocks]
  · simp only [Code.openBlock, hblocks]
    exact .other (by simp) .nil
  · simpa [settled, Symbols.addProc] using hclosed

theorem boundNames_of_extends (h : Extends r r') : r'.boundNames = r.boundNames := by
  have hget (s : Resolution) : s.boundNames =
      (s.current.bind fun id => (s.symbols.procs.map (·.bindings))[id]?).getD [] := by
    cases hid : s.current with
    | none => simp [boundNames, procedure?, hid]
    | some id =>
      cases hp : s.symbols.procs[id]? <;> simp [boundNames, procedure?, hid, hp]
  rw [hget r', hget r, h.current, h.bindings]

/-- Every move of resolution keeps names scoped. -/
theorem Scoped.move (h : Scoped eof ts r) (hsound : Sound r) (hlaid : LaidOut r)
    (hr : Reaches eof {} ts r (t :: rest))
    (hts : ts.Pairwise (·.loc.span.start < ·.loc.span.start))
    (hmove : Move eof r t rest r' used) : Scoped eof ts r' := by
  cases hmove with
  | literal | string | word => exact h.reshape [] [] rfl rfl (by simp) rfl rfl
  | openIf ht hp => exact h.reshape [] [_] rfl rfl (by simp) rfl rfl
  | openElse ht hb hk => exact h.reshape [_] [_] hb rfl (by simp [hk]) rfl rfl
  | openLet ht hp hnames hne => exact h.openLet hr hts ht hp hnames
  | closeIf ht hb hk => exact h.reshape [_] [] hb rfl (by simp [hk]) rfl rfl
  | closeElse ht hb hk => exact h.reshape [_] [] hb rfl (by simp [hk]) rfl rfl
  | closeLet ht hb hk hp hcount => exact h.closeLet hb hk hp _
  | closeProc ht hb hk => exact h.closeProc hsound hlaid hb hk _
  | declare ht hm hs hshape hproc hr =>
    have hadds := declareShape_adds hproc hr
    have hextends := declareShape_extends hsound.tables
      (Shape.declared_of_classify hsound.tables hshape) hproc hr
    exact h.reshape [] [] rfl (by rw [hadds.code]; rfl) (by simp) (boundNames_of_extends hextends)
      hadds.procs
  | declareProc ht hm hs hshape hr => exact h.declareProc hsound hr

/-- Names are scoped at every point of a resolution. -/
theorem Reaches.scoped (h : Reaches eof {} ts r rest)
    (hts : ts.Pairwise (·.loc.span.start < ·.loc.span.start)) : Scoped eof ts r := by
  induction h with
  | start => exact .empty eof ts
  | step h hstep ih =>
    exact ih.move (h.sound .empty) (h.laidOut .empty .empty) h hts (step_move hstep)

/-- Where a `let` is innermost, `end` closes it. -/
theorem Sound.step_end (h : Sound r) {b : Block} {blocks : List Block} {count : Nat}
    (hb : r.code.blocks = b :: blocks) (hk : b.kind = .letBlock count)
    (ht : t.kind = .keyword .endKw) :
    ∃ r', r.step eof t rest = .ok (r', 0) ∧ r'.code.blocks = blocks := by
  have hwithin := hb ▸ h.within
  obtain ⟨id, hid⟩ := Option.ne_none_iff_exists'.mp hwithin.current_ne_none
  obtain ⟨p, hget, hlen⟩ := h.current id hid
  have hcount : count ≤ p.bindings.length := by
    simp only [hlen, hb, Block.bound, hk]
    omega
  exact ⟨_, (Move.closeLet ht hb hk (procedure?_eq_some.mpr ⟨hid, hget⟩) hcount).step_eq, rfl⟩

/-- What a token adds to the operations: nothing, one operation at the border of a block, or the
plain operations of a literal or a word. Only bound names refer to bindings. -/
inductive Emits (r : Resolution) (t : Token) (r' : Resolution) : Prop
  | nothing (hops : r'.code.ops = r.code.ops)
  | border {kind : OpKind} (hk : kind.isPlain = false)
      (hops : r'.code.ops = r.code.ops ++ [⟨kind, t.loc⟩])
  | plain {kinds : List OpKind} (hc : r.current ≠ none)
      (hkinds : ∀ kind ∈ kinds, kind.Usable r.symbols r.names)
      (hbinding : ∀ d, .pushBinding d ∈ kinds →
        ∃ word, t.kind = .word word ∧ r.boundNames.reverse.idxOf? word = some d)
      (hops : r'.code.ops = r.code.ops ++ kinds.map (⟨·, t.loc⟩))
      (hblocks : r'.code.blocks = r.code.blocks)

theorem Emits.of_usable (hc : r.current ≠ none) {kinds : List OpKind}
    (hkinds : ∀ bound, ∀ kind ∈ kinds, kind.Usable r.symbols bound)
    (hops : r'.code.ops = r.code.ops ++ kinds.map (⟨·, t.loc⟩))
    (hblocks : r'.code.blocks = r.code.blocks) : Emits r t r' := by
  refine .plain hc (hkinds r.names) (fun d hd => ?_) hops hblocks
  exact absurd ((hkinds 0 _ hd).depth d rfl) (Nat.not_lt_zero d)

theorem Emits.of_lookup (h : Sound r) (hc : r.current ≠ none) {text : String} {m : Meaning}
    (ht : t.kind = .word text) (hm : r.lookup text t.loc = .ok (some m)) :
    Emits r t (r.emitAll m.ops t.loc) := by
  rcases (means_of_lookup hm).binding_or_usable h.tables with
    ⟨id, p, depth, hproc, hdepth, rfl⟩ | husable
  · refine .plain hc (List.forall_mem_singleton.mpr (usable_of_bindingDepth? hproc hdepth))
      (fun d hd => ⟨text, ht, ?_⟩) rfl rfl
    cases List.mem_singleton.mp hd
    rw [boundNames_eq hproc]
    exact hdepth
  · exact .of_usable hc husable rfl rfl

theorem Move.emits (h : Sound r) (hmove : Move eof r t rest r' used) : Emits r t r' := by
  have hinside {id : Nat} {p : Procedure} (hp : r.procedure? = some (id, p)) :
      r.current ≠ none := by simp [(procedure?_eq_some.mp hp).1]
  cases hmove with
  | literal ht hp =>
    exact .of_usable (hinside hp)
      (fun bound => Value.usable_of_pushes (declared_of_literal? ht _) bound) rfl rfl
  | string ht hp =>
    have hkind (id bound : Nat) : (OpKind.pushStr id).Usable r.symbols bound :=
      ⟨rfl, trivial, nofun⟩
    exact .of_usable (hinside hp) (fun bound => List.forall_mem_singleton.mpr (hkind _ bound)) rfl rfl
  | word ht hm hc => exact .of_lookup h hc ht hm
  | openIf | openElse | openLet | closeIf | closeElse | closeLet | closeProc => exact .border rfl rfl
  | declare ht hm hs hshape hproc hr =>
    exact .nothing (by rw [(declareShape_adds hproc hr).code])
  | declareProc ht hm hs hshape hr =>
    obtain ⟨_, p, _, _, _, _, _, rfl⟩ := declareProc_eq_ok hr
    exact .border rfl rfl

theorem Sound.length_boundNames (h : Sound r) :
    r.boundNames.length = Block.bound r.code.blocks := by
  rw [Resolution.length_boundNames]
  cases hid : r.current with
  | some id => exact h.names_eq hid
  | none =>
    have hblocks : r.code.blocks = [] := Within.eq_nil_of_none (hid ▸ h.within)
    simp [Resolution.names, procedure?, hid, hblocks, Block.bound]

/-- Before each operation that a token emits those blocks are open that were open before the token,
and behind it those that are open behind the token. -/
theorem Emits.nested_take (h : Emits r t r') (hr : Sound r) (hr' : Sound r') {k : Nat}
    (hk : r.code.ops.length ≤ k) (hlt : k < r'.code.ops.length) :
    NestsAll 0 (r'.code.ops.take k) [] r.code.blocks ∧
      NestsAll 0 (r'.code.ops.take (k + 1)) [] r'.code.blocks := by
  have hnested' := hr'.nested
  cases h with
  | nothing hops =>
    rw [hops] at hlt
    omega
  | border _ hops =>
    rw [hops] at hlt hnested' ⊢
    obtain rfl : k = r.code.ops.length := by
      simp only [List.length_append, List.length_singleton] at hlt
      omega
    rw [List.take_left, List.take_of_length_le (by simp)]
    exact ⟨hr.nested, hnested'⟩
  | @plain kinds hc hkinds _ hops hblocks =>
    rw [hops, hblocks]
    have husable : ∀ kind ∈ kinds, kind.Usable r.symbols (Block.bound r.code.blocks) := by
      rwa [← hr.length_boundNames, Resolution.length_boundNames]
    have hpart (n : Nat) (hn : r.code.ops.length ≤ n) :
        NestsAll 0 ((r.code.ops ++ kinds.map (Op.mk · t.loc)).take n) [] r.code.blocks := by
      rw [List.take_append, List.take_of_length_le hn, ← List.map_take]
      exact hr.nested.append (.plain (fun kind hmem => husable kind (List.mem_of_mem_take hmem))
        (hr.within.ne_nil hc) t.loc)
    exact ⟨hpart k hk, hpart (k + 1) (Nat.le_succ_of_le hk)⟩

end Resolution

/-- The innermost block of some that binds a name, and the number of names that it binds behind the
last one of this name. -/
def Block.Binds (ts : List Token) (blocks : List Block) (name : String) (b : Block) (later : Nat) :
    Prop :=
  ∃ inner outer, blocks = inner ++ b :: outer ∧ (∀ c ∈ inner, name ∉ c.names ts) ∧
    ∃ front behind, b.names ts = front ++ name :: behind ∧ name ∉ behind ∧ behind.length = later

theorem Block.Binds.cons {ts : List Token} {blocks : List Block} {name : String} {b c : Block}
    {later : Nat} (h : Block.Binds ts blocks name b later) (hc : name ∉ c.names ts) :
    Block.Binds ts (c :: blocks) name b later := by
  obtain ⟨inner, outer, rfl, hinner, hlast⟩ := h
  exact ⟨c :: inner, outer, rfl, List.forall_mem_cons.mpr ⟨hc, hinner⟩, hlast⟩

theorem idxOf?_append_of_notMem {name : String} {front : List String} (h : name ∉ front)
    (behind : List String) :
    (front ++ behind).idxOf? name = (behind.idxOf? name).map (· + front.length) := by
  unfold List.idxOf?
  rw [List.findIdx?_append]
  change (front.idxOf? name).or _ = _
  rw [List.idxOf?_eq_none_iff.mpr h, Option.none_or]

namespace CheckState

/-- The pass gets to an index, and is in a given state there. -/
def Arrives (sym : Symbols) (ops : List Op) (k : Nat) (st : CheckState) : Prop :=
  (run sym {} 0 (ops.take k)).2 = .ok st

/-- The values bound by open blocks, latest first: each `let` holds those that were on top of the
stack in front of it. -/
inductive Holds (sym : Symbols) (ops : List Op) : List Block → List Frame → Prop
  | nil : Holds sym ops [] []
  | other {b : Block} {blocks : List Block} {bindings : List Frame}
      (hk : ∀ count, b.kind ≠ .letBlock count) (h : Holds sym ops blocks bindings) :
      Holds sym ops (b :: blocks) bindings
  | scope {b : Block} {blocks : List Block} {st : CheckState} {frames rest bindings : List Frame}
      (hk : b.kind = .letBlock frames.length) (hst : Arrives sym ops b.opener st)
      (hop : ops[b.opener]? = some ⟨.bind frames.length, b.loc⟩)
      (hframes : st.stack.frames = frames ++ rest) (h : Holds sym ops blocks bindings) :
      Holds sym ops (b :: blocks) (frames ++ bindings)

variable {sym : Symbols} {ops : List Op} {k : Nat} {st next : CheckState} {op : Op}
  {blocks after : List Block}

theorem Arrives.succ (h : Arrives sym ops (k + 1) next) (hop : ops[k]? = some op) :
    ∃ st, Arrives sym ops k st ∧ st.step sym k op = .ok next :=
  run_take_succ h hop

theorem Holds.tail {b : Block} {bindings : List Frame} (h : Holds sym ops (b :: blocks) bindings)
    (hk : ∀ count, b.kind ≠ .letBlock count) : Holds sym ops blocks bindings := by
  cases h with
  | other _ h => exact h
  | scope hlet => exact absurd hlet (hk _)

theorem Holds.drop {b : Block} {bindings : List Frame} {count : Nat}
    (h : Holds sym ops (b :: blocks) bindings) (hk : b.kind = .letBlock count) :
    Holds sym ops blocks (bindings.drop count) := by
  cases h with
  | other hother => exact absurd hk (hother count)
  | scope hlet _ _ _ h =>
    rw [hlet] at hk
    cases hk
    rwa [List.drop_left]

/-- One move keeps the bindings those of the open blocks. -/
theorem Move.holds (hmove : Move sym k st op next) (hnests : Nests k op blocks after)
    (hst : Arrives sym ops k st) (hop : ops[k]? = some op)
    (haligned : Aligned st.current blocks st.bindings st.branches)
    (h : Holds sym ops blocks st.bindings) : Holds sym ops after next.bindings := by
  cases hnests with
  | plain hk =>
    cases hmove with
    | plain => exact h
    | ifBegin | ifElse | ifEnd | elseEnd | bind | unbind | procBegin | procEnd => cases hk
  | procBegin =>
    cases hmove with
    | plain hk => cases hk
    | procBegin => exact .other nofun .nil
  | procEnd =>
    cases hmove with
    | plain hk => cases hk
    | procEnd => exact .nil
  | ifBegin =>
    cases hmove with
    | plain hk => cases hk
    | ifBegin => exact .other nofun h
  | ifElse hk =>
    -- The checker goes back to the bindings in front of the `if`, which are still the same.
    obtain ⟨branch, branches, hb, _, _, _, hbindings, _⟩ := hmove.of_ifElse rfl
    obtain ⟨branch', rest, hb', _, hsame, _⟩ := haligned.of_then hk
    rw [hb] at hb'
    cases hb'
    rw [hbindings, hsame]
    exact .other nofun (h.tail (by simp [hk]))
  | ifEnd hk =>
    obtain ⟨_, hclosing, _⟩ := hmove.of_ifEnd rfl
    rw [hclosing.bindings]
    exact h.tail (by simp [hk])
  | elseEnd hk =>
    obtain ⟨_, _, hclosing, _⟩ := hmove.of_elseEnd rfl
    rw [hclosing.bindings]
    exact h.tail (by simp [hk])
  | bind =>
    cases hmove with
    | plain hk => cases hk
    | @bind _ args rest hc hf =>
      exact .scope (by simp) hst (by simpa using hop) hf h
  | unbind hk =>
    cases hmove with
    | plain hplain => cases hplain
    | unbind => exact h.drop hk

/-- As far as a pass gets, its bindings are in step with the blocks, and are those that the blocks
hold. -/
theorem Arrives.holds (h : Arrives sym ops k st) (hk : k ≤ ops.length)
    (hnests : NestsAll 0 (ops.take k) [] blocks) :
    st.stack.Settled ∧ Aligned st.current blocks st.bindings st.branches ∧
      Holds sym ops blocks st.bindings := by
  induction k generalizing st blocks with
  | zero =>
    cases hnests
    cases h
    exact ⟨Int.le_refl 0, .outside, .nil⟩
  | succ k ih =>
    have hop : ops[k]? = some ops[k] := List.getElem?_eq_getElem hk
    obtain ⟨before, hbefore, hstep⟩ := h.succ hop
    obtain ⟨mid, hmid, hnests⟩ := hnests.of_take_succ hop
    obtain ⟨hs, haligned, hholds⟩ := ih hbefore (Nat.le_of_succ_le hk) hmid
    have hmove := step_move hs hstep
    exact ⟨hmove.settled hs, hmove.aligned hnests haligned,
      hmove.holds hnests hbefore hop haligned hholds⟩

/-- The depth of a name among all names leads to the value that the innermost block with this name
holds for it. -/
theorem Holds.exists_binds {ts : List Token} {bindings : List Frame} {name : String} {d : Nat}
    (h : Holds sym ops blocks bindings)
    (hcounts : ∀ b ∈ blocks, ∀ count, b.kind = .letBlock count → (b.names ts).length = count)
    (hd : (blocks.flatMap fun b => (b.names ts).reverse).idxOf? name = some d) :
    ∃ b later st f, Block.Binds ts blocks name b later ∧ Arrives sym ops b.opener st ∧
      ops[b.opener]? = some ⟨.bind (b.names ts).length, b.loc⟩ ∧
      st.stack.frames[later]? = some f ∧ bindings[d]? = some f := by
  induction h generalizing d with
  | nil => cases hd
  | @other b blocks bindings hk h ih =>
    have hnone := Block.names_eq_nil hk ts
    rw [List.flatMap_cons, hnone, List.reverse_nil, List.nil_append] at hd
    obtain ⟨b', later, st, f, hbinds, hrest⟩ := ih (List.forall_mem_cons.mp hcounts).2 hd
    exact ⟨b', later, st, f, hbinds.cons (by simp [hnone]), hrest⟩
  | @scope b blocks st frames rest bindings hk hst hop hframes h ih =>
    obtain ⟨hcount, hcounts⟩ := List.forall_mem_cons.mp hcounts
    have hlen : (b.names ts).length = frames.length := hcount _ hk
    rw [List.flatMap_cons] at hd
    by_cases hname : name ∈ (b.names ts).reverse
    · obtain ⟨behind, front, heq, hbehind⟩ := List.eq_append_cons_of_mem hname
      rw [heq, List.append_assoc, idxOf?_append_of_notMem hbehind] at hd
      obtain rfl : behind.length = d := by simpa [List.idxOf?_cons] using hd
      have hnames : b.names ts = front.reverse ++ name :: behind.reverse := by
        rw [← List.reverse_reverse (b.names ts), heq]
        simp
      have hlt : behind.length < frames.length := by
        rw [← hlen, hnames]
        simp only [List.length_append, List.length_cons, List.length_reverse]
        omega
      refine ⟨b, behind.length, st, frames[behind.length], ?_, hst, hlen ▸ hop, ?_, ?_⟩
      · exact ⟨[], blocks, rfl, by simp, front.reverse, behind.reverse, hnames, by simpa using hbehind,
          by simp⟩
      · rw [hframes, List.getElem?_append_left hlt, List.getElem?_eq_getElem hlt]
      · rw [List.getElem?_append_left hlt, List.getElem?_eq_getElem hlt]
    · rw [idxOf?_append_of_notMem hname] at hd
      obtain ⟨d, houter, rfl⟩ := Option.map_eq_some_iff.mp hd
      obtain ⟨b', later, st', f, hbinds, hst', hop', hlater, hf⟩ := ih hcounts houter
      refine ⟨b', later, st', f, hbinds.cons (by simpa using hname), hst', hop', hlater, ?_⟩
      rw [List.length_reverse, hlen, List.getElem?_append_right (Nat.le_add_left _ _),
        Nat.add_sub_cancel]
      exact hf

/-- A bound name pushes a value of the type that its binding has. -/
theorem frames_of_pushBinding {d : Nat} {loc : Location} {f : Frame}
    (h : st.step sym k ⟨.pushBinding d, loc⟩ = .ok next) (hf : st.bindings[d]? = some f) :
    next.stack.frames = ⟨f.ty, loc⟩ :: st.stack.frames := by
  rw [step_eq] at h
  split at h
  · cases h
  · simp only [effect, pushBinding, hf] at h
    cases h
    rfl

end CheckState

namespace Resolution

/-- The step of a resolution at a token, from one point to the next, that emits the operation with a
given index. -/
def EmitsAt (s : TokenStream) (k : Nat) (r : Resolution) (t : Token) (r' : Resolution) : Prop :=
  ∃ rest used, Reaches s.eof {} s.tokens r (t :: rest) ∧ r.step s.eof t rest = .ok (r', used) ∧
    r.code.ops.length ≤ k ∧ k < r'.code.ops.length

theorem Reaches.exists_emitsAt {s : TokenStream} {r : Resolution} {rest : List Token}
    (h : Reaches s.eof {} s.tokens r rest) {k : Nat} (hk : k < r.code.ops.length) :
    ∃ r₀ t r₁, EmitsAt s k r₀ t r₁ := by
  induction h with
  | start => cases hk
  | @step r r' t rest used h hstep ih =>
    rcases Nat.lt_or_ge k r.code.ops.length with hlt | hge
    · exact ih hlt
    · exact ⟨r, t, r', rest, used, h, hstep, hge, hk⟩

/-- The operations at a point of a resolution are the front part of those at its end. -/
theorem Reaches.exists_more {eof : Location} {start r last : Resolution} {ts rest : List Token}
    (h : Reaches eof start ts r rest) (hlast : Reaches eof start ts last []) :
    ∃ more, last.code.ops = r.code.ops ++ more := by
  obtain ⟨more, hmore, _⟩ := (h.to_last hlast).ops
  exact ⟨more, hmore⟩

section EmitsAt

variable {s : TokenStream} {k : Nat} {r r' last : Resolution} {t : Token}

theorem EmitsAt.sound (h : EmitsAt s k r t r') : Sound r ∧ Sound r' ∧ Emits r t r' := by
  obtain ⟨rest, used, hr, hstep, _⟩ := h
  have hsound := hr.sound .empty
  exact ⟨hsound, hsound.step hstep, (step_move hstep).emits hsound⟩

theorem EmitsAt.exists_more (h : EmitsAt s k r t r') (hlast : Reaches s.eof {} s.tokens last []) :
    ∃ more, last.code.ops = r'.code.ops ++ more := by
  obtain ⟨rest, used, hr, hstep, _⟩ := h
  exact (Reaches.step hr hstep).exists_more hlast

theorem EmitsAt.nested_take (h : EmitsAt s k r t r') (hlast : Reaches s.eof {} s.tokens last []) :
    k < last.code.ops.length ∧ NestsAll 0 (last.code.ops.take k) [] r.code.blocks ∧
      NestsAll 0 (last.code.ops.take (k + 1)) [] r'.code.blocks := by
  obtain ⟨hsound, hsound', hemits⟩ := h.sound
  obtain ⟨more, hmore⟩ := h.exists_more hlast
  obtain ⟨rest, used, hr, hstep, hle, hlt⟩ := h
  obtain ⟨hbefore, hbehind⟩ := hemits.nested_take hsound hsound' hle hlt
  rw [hmore, List.take_append_of_le_length (Nat.le_of_lt hlt), List.take_append_of_le_length hlt]
  exact ⟨by rw [List.length_append]; omega, hbefore, hbehind⟩

/-- An operation that refers to a binding is emitted for a bound name. -/
theorem EmitsAt.exists_word (h : EmitsAt s k r t r') (hlast : Reaches s.eof {} s.tokens last [])
    {d : Nat} {loc : Location} (hop : last.code.ops[k]? = some ⟨.pushBinding d, loc⟩) :
    ∃ word, t.kind = .word word ∧ r.boundNames.reverse.idxOf? word = some d := by
  obtain ⟨more, hmore⟩ := h.exists_more hlast
  obtain ⟨_, _, hemits⟩ := h.sound
  obtain ⟨rest, used, hr, hstep, hle, hlt⟩ := h
  rw [hmore, List.getElem?_append_left hlt] at hop
  cases hemits with
  | nothing hops =>
    rw [hops] at hlt
    omega
  | @border kind hk hops =>
    rw [hops, List.getElem?_append_right hle] at hop
    cases List.mem_singleton.mp (List.mem_of_getElem? hop)
    cases hk
  | plain hc hkinds hbinding hops hblocks =>
    rw [hops, List.getElem?_append_right hle] at hop
    obtain ⟨kind, hkind, heq⟩ := List.mem_map.mp (List.mem_of_getElem? hop)
    cases heq
    exact hbinding d hkind

end EmitsAt

/-- Names are scoped lexically at a point of a resolution. Those bound are the names of the open
`let` blocks, outermost first, and a procedure that is closed has none. The tokens ahead never take
back more names than are bound, and the end of a `let` restores the names from before it. -/
structure Lexical (s : TokenStream) (r : Resolution) (rest : List Token) : Prop where
  names : r.boundNames = r.code.blocks.reverse.flatMap (Block.names s.tokens)
  closed : ∀ p ∈ r.settled.procs, p.bindings = []
  faults : ∀ t behind f, rest = t :: behind → r.step s.eof t behind = .error f →
    ∀ count bound, f.cause ≠ .bindingScope count bound
  restores : ∀ t behind b blocks count, rest = t :: behind → t.kind = .keyword .endKw →
    r.code.blocks = b :: blocks → b.kind = .letBlock count →
    ∃ r' r₀ t₀ rest₀, r.step s.eof t behind = .ok (r', 0) ∧
      Reaches s.eof {} s.tokens r₀ (t₀ :: rest₀) ∧ t₀.kind = .keyword .letKw ∧ t₀.loc = b.loc ∧
      r'.boundNames = r₀.boundNames

theorem Reaches.lexical {s : TokenStream} {r : Resolution} {rest : List Token}
    (h : Reaches s.eof {} s.tokens r rest)
    (hts : s.tokens.Pairwise (·.loc.span.start < ·.loc.span.start)) : Lexical s r rest := by
  have hsound := h.sound .empty
  have hscoped := h.scoped hts
  refine ⟨hscoped.names, hscoped.closed, ?_, ?_⟩
  · rintro t behind f rfl hf
    have hany (t : Token) : t.Within (fun _ => True) fun _ => True := ⟨trivial, fun _ _ => trivial⟩
    exact (hsound.step_faults quotable_true trivial (fun t _ => hany t) r.symbols.allNames_true
      (hany t) f hf).scope
  · rintro t behind b blocks count rfl ht hb hk
    obtain ⟨r', hstep, hblocks⟩ := hsound.step_end hb hk ht
    have hopened := hscoped.opened
    rw [hb] at hopened
    cases hopened with
    | other hother => exact absurd hk (hother count)
    | scope hr hlet hloc _ houter _ =>
      refine ⟨r', _, _, _, hstep, hr, hlet, hloc, ?_⟩
      have hnext : Reaches s.eof {} s.tokens r' (behind.drop 0) := .step h hstep
      rw [(hnext.scoped hts).names, (hr.scoped hts).names, hblocks, houter]

end Resolution

/-- The bindings of a check follow the names of resolution. Wherever the check gets to, it has as
many bindings as there were names when the operations there were emitted, and a bound name pushes
the type of a value that a `let` took: the innermost `let` with this name, and of its names the last
that is this one, where the last name of all stands for the top of the stack. -/
structure Program.Lexical (s : TokenStream) (p : Program) : Prop where
  closed : ∀ q ∈ p.symbols.procs, q.bindings = []
  emitted : ∀ k < p.ops.length, ∃ r t r', Resolution.EmitsAt s k r t r'
  lengths : ∀ k r t r', Resolution.EmitsAt s k r t r' →
    (∀ st, CheckState.Arrives p.symbols p.ops k st → st.bindings.length = r.boundNames.length) ∧
    ∀ st, CheckState.Arrives p.symbols p.ops (k + 1) st →
      st.bindings.length = r'.boundNames.length
  values : ∀ k r t r' d loc next, Resolution.EmitsAt s k r t r' →
    p.ops[k]? = some ⟨.pushBinding d, loc⟩ → CheckState.Arrives p.symbols p.ops (k + 1) next →
    ∃ name b later opened st f, t.kind = .word name ∧
      Block.Binds s.tokens r.code.blocks name b later ∧
      p.ops[b.opener]? = some ⟨.bind (b.names s.tokens).length, b.loc⟩ ∧
      CheckState.Arrives p.symbols p.ops b.opener opened ∧ opened.stack.frames[later]? = some f ∧
      CheckState.Arrives p.symbols p.ops k st ∧ next.stack.frames = ⟨f.ty, loc⟩ :: st.stack.frames

namespace Resolution.Reaches

variable {s : TokenStream} {last : Resolution}

/-- The check has as many bindings as there were names. -/
theorem bindings_length (hlast : Reaches s.eof {} s.tokens last []) {k : Nat} {r r' : Resolution}
    {t : Token} (h : EmitsAt s k r t r') :
    (∀ st, CheckState.Arrives last.symbols last.code.ops k st →
      st.bindings.length = r.boundNames.length) ∧
    ∀ st, CheckState.Arrives last.symbols last.code.ops (k + 1) st →
      st.bindings.length = r'.boundNames.length := by
  obtain ⟨hlt, hbefore, hbehind⟩ := h.nested_take hlast
  obtain ⟨hsound, hsound', _⟩ := h.sound
  refine ⟨fun st hst => ?_, fun st hst => ?_⟩
  · obtain ⟨_, haligned, _⟩ := hst.holds (Nat.le_of_lt hlt) hbefore
    rw [haligned.length_eq, hsound.length_boundNames]
  · obtain ⟨_, haligned, _⟩ := hst.holds hlt hbehind
    rw [haligned.length_eq, hsound'.length_boundNames]

/-- A bound name pushes the type of the value that its `let` took for it. -/
theorem exists_value (hlast : Reaches s.eof {} s.tokens last [])
    (hts : s.tokens.Pairwise (·.loc.span.start < ·.loc.span.start)) {k d : Nat}
    {r r' : Resolution} {t : Token} {loc : Location} {next : CheckState} (h : EmitsAt s k r t r')
    (hop : last.code.ops[k]? = some ⟨.pushBinding d, loc⟩)
    (hnext : CheckState.Arrives last.symbols last.code.ops (k + 1) next) :
    ∃ name b later opened st f, t.kind = .word name ∧
      Block.Binds s.tokens r.code.blocks name b later ∧
      last.code.ops[b.opener]? = some ⟨.bind (b.names s.tokens).length, b.loc⟩ ∧
      CheckState.Arrives last.symbols last.code.ops b.opener opened ∧
      opened.stack.frames[later]? = some f ∧
      CheckState.Arrives last.symbols last.code.ops k st ∧
      next.stack.frames = ⟨f.ty, loc⟩ :: st.stack.frames := by
  obtain ⟨name, ht, hd⟩ := h.exists_word hlast hop
  obtain ⟨hlt, hbefore, _⟩ := h.nested_take hlast
  obtain ⟨st, hst, hstep⟩ := hnext.succ hop
  obtain ⟨_, _, hholds⟩ := hst.holds (Nat.le_of_lt hlt) hbefore
  obtain ⟨rest, used, hr, _⟩ := h
  have hscoped := hr.scoped hts
  rw [hscoped.names, List.reverse_flatMap, List.reverse_reverse] at hd
  obtain ⟨b, later, opened, f, hbinds, hopened, hbind, hlater, hf⟩ :=
    hholds.exists_binds hscoped.counts hd
  exact ⟨name, b, later, opened, st, f, ht, hbinds, hbind, hopened, hlater, hst,
    CheckState.frames_of_pushBinding hstep hf⟩

end Resolution.Reaches

/-- Names are scoped lexically at every point of the resolution of a text, whether it succeeds or
not, and the check of a program that is resolved follows them. -/
theorem scoping_is_lexical_in_both_passes (file source : String) (s : TokenStream)
    (hs : TokenStream.ofSource file source = .ok s) :
    (∀ r rest, Resolution.Reaches s.eof {} s.tokens r rest → Resolution.Lexical s r rest) ∧
      ∀ p, Program.ofSource file source = .ok p → Program.Lexical s p := by
  have hts := TokenStream.pairwise_tokens hs
  refine ⟨fun r rest h => h.lexical hts, fun p hp => ?_⟩
  obtain ⟨s', last, hs', hlast, hblocks, rfl⟩ := Program.exists_reaches hp
  obtain rfl : s' = s := Except.ok.inj (hs'.symm.trans hs)
  have hnone := (hlast.sound .empty).within
  rw [hblocks] at hnone
  refine ⟨?_, fun k hk => hlast.exists_emitsAt hk, fun k r t r' h => hlast.bindings_length h,
    fun k r t r' d loc next h hop hnext => hlast.exists_value hts h hop hnext⟩
  rw [← Resolution.settled_eq_symbols hnone.eq_none_of_nil]
  exact (hlast.scoped hts).closed

def shadowingText : String :=
  "f :: int bool -> int let x b : 1 true let x x : b if x else 0 false let y x : x end end " ++
    "if 5 else 6 end end x + end end"

theorem scoping_of_shadowing_text_is_lexical :
    ∃ s p c, TokenStream.ofSource "shadowing" shadowingText = .ok s ∧
      Program.ofSource "shadowing" shadowingText = .ok p ∧ Checked.ofProgram p = .ok c ∧
      (∀ r rest, Resolution.Reaches s.eof {} s.tokens r rest → Resolution.Lexical s r rest) ∧
      Program.Lexical s p := by
  have hok : (Checked.ofSource "shadowing" shadowingText).toOption.isSome := by decide +kernel
  cases hc : Checked.ofSource "shadowing" shadowingText with
  | error f =>
    rw [hc] at hok
    cases hok
  | ok c =>
    obtain ⟨p, hp, hcheck⟩ := bind_eq_ok hc
    obtain ⟨s, _, hs, _⟩ := Program.exists_reaches hp
    have h := scoping_is_lexical_in_both_passes "shadowing" shadowingText s hs
    exact ⟨s, p, c, hs, hp, hcheck, h.1, h.2 p hp⟩

end StackEffect
