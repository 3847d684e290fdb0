import StackEffect.Proofs.Meaning
import StackEffect.Proofs.Steps
import StackEffect.Program

/-! # The nesting of blocks

The operations of a resolved program are properly nested: following them, every operation that
closes or continues a block finds the block it names innermost. Here that is read off the list of
operations alone, and the blocks that are open behind a list are those that resolution keeps for it.
-/

namespace StackEffect

namespace Block

def bound : List Block → Nat
  | [] => 0
  | b :: blocks =>
    match b.kind with
    | .letBlock count => count + bound blocks
    | .ifBlock | .elseBlock | .procBlock _ => bound blocks

end Block

/-- What an operation with a given index does to the open blocks, innermost first. -/
inductive Nests (index : Nat) : Op → List Block → List Block → Prop
  | plain {op : Op} {blocks : List Block} (hk : op.kind.isPlain) (hin : blocks ≠ [])
      (hdepth : ∀ d, op.kind = .pushBinding d → d < Block.bound blocks) :
      Nests index op blocks blocks
  | procBegin {id : Nat} {loc : Location} :
      Nests index ⟨.procBegin id, loc⟩ [] [⟨.procBlock id, index, loc⟩]
  | procEnd {b : Block} {id frame : Nat} {loc : Location} (hk : b.kind = .procBlock id) :
      Nests index ⟨.procEnd id frame, loc⟩ [b] []
  | ifBegin {blocks : List Block} {loc : Location} (hin : blocks ≠ []) :
      Nests index ⟨.ifBegin, loc⟩ blocks (⟨.ifBlock, index, loc⟩ :: blocks)
  | ifElse {b : Block} {blocks : List Block} {opener : Nat} {loc : Location}
      (hk : b.kind = .ifBlock) (hopener : b.opener = opener) :
      Nests index ⟨.ifElse opener, loc⟩ (b :: blocks) (⟨.elseBlock, opener, loc⟩ :: blocks)
  | ifEnd {b : Block} {blocks : List Block} {opener : Nat} {loc : Location} (hk : b.kind = .ifBlock)
      (hopener : b.opener = opener) : Nests index ⟨.ifEnd opener, loc⟩ (b :: blocks) blocks
  | elseEnd {b : Block} {blocks : List Block} {opener : Nat} {loc : Location}
      (hk : b.kind = .elseBlock) (hopener : b.opener = opener) :
      Nests index ⟨.elseEnd opener, loc⟩ (b :: blocks) blocks
  | bind {blocks : List Block} {count : Nat} {loc : Location} (hin : blocks ≠ []) :
      Nests index ⟨.bind count, loc⟩ blocks (⟨.letBlock count, index, loc⟩ :: blocks)
  | unbind {b : Block} {blocks : List Block} {count : Nat} {loc : Location}
      (hk : b.kind = .letBlock count) : Nests index ⟨.unbind count, loc⟩ (b :: blocks) blocks

/-- What operations, the first of which has the given index, do to the open blocks. -/
inductive NestsAll : Nat → List Op → List Block → List Block → Prop
  | nil {index : Nat} {blocks : List Block} : NestsAll index [] blocks blocks
  | cons {index : Nat} {op : Op} {ops : List Op} {blocks mid after : List Block}
      (h : Nests index op blocks mid) (hrest : NestsAll (index + 1) ops mid after) :
      NestsAll index (op :: ops) blocks after

theorem NestsAll.append {index : Nat} {as bs : List Op} {blocks mid after : List Block}
    (has : NestsAll index as blocks mid) (hbs : NestsAll (index + as.length) bs mid after) :
    NestsAll index (as ++ bs) blocks after := by
  induction has with
  | nil => exact hbs
  | cons h hrest ih =>
    refine .cons h (ih ?_)
    rwa [List.length_cons, Nat.add_comm _ 1, ← Nat.add_assoc] at hbs

theorem NestsAll.snoc {index : Nat} {ops : List Op} {op : Op} {blocks mid after : List Block}
    (h : NestsAll index ops blocks mid) (hop : Nests (index + ops.length) op mid after) :
    NestsAll index (ops ++ [op]) blocks after :=
  h.append (.cons hop .nil)

theorem NestsAll.split {index : Nat} {as bs : List Op} {blocks after : List Block}
    (h : NestsAll index (as ++ bs) blocks after) :
    ∃ mid, NestsAll index as blocks mid ∧ NestsAll (index + as.length) bs mid after := by
  induction as generalizing index blocks with
  | nil => exact ⟨blocks, .nil, h⟩
  | cons a as ih =>
    cases h with
    | cons ha hrest =>
      obtain ⟨mid, has, hbs⟩ := ih hrest
      refine ⟨mid, .cons ha has, ?_⟩
      rwa [List.length_cons, Nat.add_comm _ 1, ← Nat.add_assoc]

theorem NestsAll.of_take_succ {ops : List Op} {op : Op} {k : Nat} {blocks after : List Block}
    (h : NestsAll 0 (ops.take (k + 1)) blocks after) (hop : ops[k]? = some op) :
    ∃ mid, NestsAll 0 (ops.take k) blocks mid ∧ Nests k op mid after := by
  have hlt : k < ops.length := (List.getElem?_eq_some_iff.mp hop).1
  rw [List.take_add_one, hop, Option.toList_some] at h
  obtain ⟨mid, hmid, hlast⟩ := h.split
  rw [Nat.zero_add, List.length_take, Nat.min_eq_left (Nat.le_of_lt hlt)] at hlast
  cases hlast with
  | cons hop hnil =>
    cases hnil
    exact ⟨mid, hmid, hop⟩

/-- Operations that words stand for leave the blocks as they are. -/
theorem NestsAll.plain {index : Nat} {blocks : List Block} {sym : Symbols} {kinds : List OpKind}
    (hkinds : ∀ kind ∈ kinds, kind.Usable sym (Block.bound blocks)) (hin : blocks ≠ [])
    (loc : Location) : NestsAll index (kinds.map (⟨·, loc⟩)) blocks blocks := by
  induction kinds generalizing index with
  | nil => exact .nil
  | cons kind kinds ih =>
    obtain ⟨hkind, hkinds⟩ := List.forall_mem_cons.mp hkinds
    exact .cons (.plain hkind.plain hin hkind.depth) (ih hkinds)

/-- Inside a procedure its own block is the outermost one, and the only one of its kind. -/
inductive Within : Option Nat → List Block → Prop
  | outside : Within none []
  | body {b : Block} {id : Nat} (hk : b.kind = .procBlock id) : Within (some id) [b]
  | inner {b : Block} {blocks : List Block} {id : Nat} (hk : ∀ q, b.kind ≠ .procBlock q)
      (h : Within (some id) blocks) : Within (some id) (b :: blocks)

namespace Within

variable {current : Option Nat} {b : Block} {blocks : List Block}

theorem ne_nil (h : Within current blocks) (hc : current ≠ none) : blocks ≠ [] := by
  cases h with
  | outside => exact absurd rfl hc
  | body | inner => exact List.cons_ne_nil _ _

theorem cons (h : Within current blocks) (hc : current ≠ none) (hk : ∀ q, b.kind ≠ .procBlock q) :
    Within current (b :: blocks) := by
  cases h with
  | outside => exact absurd rfl hc
  | body hbody => exact .inner hk (.body hbody)
  | inner hinner h => exact .inner hk (.inner hinner h)

theorem tail (h : Within current (b :: blocks)) (hk : ∀ q, b.kind ≠ .procBlock q) :
    Within current blocks := by
  cases h with
  | body hbody => exact absurd hbody (hk _)
  | inner _ h => exact h

theorem eq_nil_of_none (h : Within none blocks) : blocks = [] := by
  cases h
  rfl

theorem eq_none_of_nil (h : Within current []) : current = none := by
  cases h
  rfl

theorem current_ne_none (h : Within current (b :: blocks)) : current ≠ none := by
  cases h <;> simp

theorem eq_nil (h : Within current (b :: blocks)) {id : Nat} (hk : b.kind = .procBlock id) :
    blocks = [] := by
  cases h with
  | body => rfl
  | inner hinner => exact absurd hk (hinner id)

theorem current_eq (h : Within current (b :: blocks)) {id : Nat} (hk : b.kind = .procBlock id) :
    current = some id := by
  cases h with
  | body hbody =>
    rw [hbody] at hk
    cases hk
    rfl
  | inner hinner => exact absurd hk (hinner id)

end Within

namespace Resolution

/-- What holds of every state of resolution: the code is properly nested, and all that it refers to
is declared. -/
structure Sound (r : Resolution) : Prop where
  tables : r.symbols.WellFormed
  ops : ∀ op ∈ r.code.ops, op.kind.Valid r.symbols
  nested : NestsAll 0 r.code.ops [] r.code.blocks
  within : Within r.current r.code.blocks
  current : ∀ id, r.current = some id →
    ∃ p, r.symbols.procs[id]? = some p ∧ p.bindings.length = Block.bound r.code.blocks
  begun : ∀ id < r.symbols.procs.length, ∃ op ∈ r.code.ops, op.kind = .procBegin id

theorem Sound.empty : Sound {} where
  tables := ⟨by simp, by simp, by simp, by simp, by simp⟩
  ops := by simp
  nested := .nil
  within := .outside
  current := by simp
  begun := by simp

variable {r r' : Resolution} {loc eof : Location} {rest : List Token} {used : Nat}

theorem Sound.extend (h : Sound r) (hr : Extends r r') : Sound r' where
  tables := hr.tables
  ops op hop := by
    rw [hr.code] at hop
    exact (h.ops op hop).grow hr.grows
  nested := by
    rw [hr.code]
    exact h.nested
  within := by
    rw [hr.code, hr.current]
    exact h.within
  current id hid := by
    rw [hr.current] at hid
    obtain ⟨p, hp, hbindings⟩ := h.current id hid
    have hsame := congrArg (·[id]?) hr.bindings
    simp only [List.getElem?_map, hp, Option.map_some, Option.map_eq_some_iff] at hsame
    obtain ⟨p', hp', hbindings'⟩ := hsame
    exact ⟨p', hp', by rw [hbindings', hbindings, hr.code]⟩
  begun id hid := by
    have hlen : r'.symbols.procs.length = r.symbols.procs.length := by
      simpa using congrArg List.length hr.bindings
    rw [hr.code]
    exact h.begun id (hlen ▸ hid)

/-- One more operation, with what it does to the blocks, the procedure and the tables. -/
theorem Sound.emit (h : Sound r) {op : Op} {blocks : List Block} {current : Option Nat}
    {symbols : Symbols} (hgrows : r.symbols.Grows symbols) (htables : symbols.WellFormed)
    (hvalid : op.kind.Valid symbols) (hnests : Nests r.code.ops.length op r.code.blocks blocks)
    (hwithin : Within current blocks)
    (hcurrent : ∀ id, current = some id →
      ∃ p, symbols.procs[id]? = some p ∧ p.bindings.length = Block.bound blocks)
    (hbegun : ∀ id < symbols.procs.length, id < r.symbols.procs.length ∨ op.kind = .procBegin id) :
    Sound ⟨r.strings, symbols, ⟨r.code.ops ++ [op], blocks⟩, current⟩ where
  tables := htables
  ops := by
    refine List.forall_mem_append.mpr ⟨fun op hop => (h.ops op hop).grow hgrows, ?_⟩
    exact List.forall_mem_singleton.mpr hvalid
  nested := h.nested.snoc (by rwa [Nat.zero_add])
  within := hwithin
  current := hcurrent
  begun id hid := by
    rcases hbegun id hid with hid | hop
    · obtain ⟨op, hop, hkind⟩ := h.begun id hid
      exact ⟨op, List.mem_append_left _ hop, hkind⟩
    · exact ⟨op, List.mem_append_right _ (List.mem_singleton_self op), hop⟩

/-- One more operation that changes nothing but the blocks. -/
theorem Sound.emit_block (h : Sound r) {op : Op} {blocks : List Block}
    (hvalid : op.kind.Valid r.symbols) (hnests : Nests r.code.ops.length op r.code.blocks blocks)
    (hwithin : Within r.current blocks) (hbound : Block.bound blocks = Block.bound r.code.blocks) :
    Sound { r with code := ⟨r.code.ops ++ [op], blocks⟩ } := by
  refine h.emit (.refl _) h.tables hvalid hnests hwithin (fun id hid => ?_) fun _ hid => .inl hid
  rw [hbound]
  exact h.current id hid

theorem Sound.names_eq (h : Sound r) {id : Nat} (hid : r.current = some id) :
    r.names = Block.bound r.code.blocks := by
  obtain ⟨p, hp, hbindings⟩ := h.current id hid
  rw [names, procedure?_eq_some.mpr ⟨hid, hp⟩]
  exact hbindings

/-- Operations that a word stands for are emitted inside a procedure. -/
theorem Sound.emitAll (h : Sound r) (hc : r.current ≠ none) {kinds : List OpKind}
    (hkinds : ∀ kind ∈ kinds, kind.Usable r.symbols r.names) (loc : Location) :
    Sound (r.emitAll kinds loc) := by
  obtain ⟨id, hid⟩ := Option.ne_none_iff_exists'.mp hc
  have hbound : ∀ kind ∈ kinds, kind.Usable r.symbols (Block.bound r.code.blocks) := by
    rwa [← h.names_eq hid]
  have hnested := h.nested.append (.plain hbound (h.within.ne_nil hc) loc)
  refine ⟨h.tables, ?_, hnested, h.within, h.current, ?_⟩
  · refine List.forall_mem_append.mpr ⟨h.ops, ?_⟩
    exact List.forall_mem_map.mpr fun kind hkind => (hkinds kind hkind).valid
  · intro id hid
    obtain ⟨op, hop, hkind⟩ := h.begun id hid
    exact ⟨op, List.mem_append_left _ hop, hkind⟩

theorem declared_of_literal? {kind : TokenKind} {v : Value} (h : kind.literal? = some v)
    (count : Nat) : v.ty.Declared count := by
  cases kind <;> cases h <;> trivial

/-- One more operation that changes the names bound in the procedure and the blocks. -/
theorem Sound.emit_scope (h : Sound r) {op : Op} {blocks : List Block} {id : Nat} {p : Procedure}
    {bindings : List String} (hp : r.procedure? = some (id, p)) (hvalid : op.kind.Valid r.symbols)
    (hnests : Nests r.code.ops.length op r.code.blocks blocks) (hwithin : Within r.current blocks)
    (hbindings : bindings.length = Block.bound blocks) :
    Sound { r.setProcedure id { p with bindings := bindings } with
      code := ⟨r.code.ops ++ [op], blocks⟩ } := by
  obtain ⟨hid, hp⟩ := procedure?_eq_some.mp hp
  have hwf := h.tables.procs p (List.mem_of_getElem? hp)
  have hgrows : r.symbols.Grows (r.symbols.modifyProc id fun _ => { p with bindings := bindings }) :=
    Symbols.modifyProc_grows hp (Nat.le_refl _)
  refine h.emit hgrows
    (h.tables.modifyProc ⟨hwf.ins, hwf.outs, hwf.locals, hwf.localStructs⟩) (hvalid.grow hgrows)
    hnests hwithin ?_ ?_
  · intro q hq
    obtain rfl : q = id := Option.some.inj (hq.symm.trans hid)
    exact ⟨{ p with bindings := bindings }, by simp [setProcedure, Symbols.modifyProc, hp], hbindings⟩
  · intro q hq
    exact .inl (by simpa [setProcedure, Symbols.modifyProc] using hq)

theorem Sound.bindings_length (h : Sound r) {id : Nat} {p : Procedure}
    (hp : r.procedure? = some (id, p)) : p.bindings.length = Block.bound r.code.blocks := by
  obtain ⟨hid, hp⟩ := procedure?_eq_some.mp hp
  obtain ⟨p', hp', hbindings⟩ := h.current id hid
  obtain rfl : p' = p := Option.some.inj (hp'.symm.trans hp)
  exact hbindings

theorem Sound.current_eq_none (h : Sound r) (hnone : r.procedure? = none) : r.current = none := by
  cases hid : r.current with
  | none => rfl
  | some id =>
    obtain ⟨p, hp, _⟩ := h.current id hid
    rw [procedure?_eq_some.mpr ⟨hid, hp⟩] at hnone
    cases hnone

theorem Sound.declareProc (h : Sound r) {name : String}
    (hr : r.declareProc name loc rest = .ok (r', used)) : Sound r' := by
  obtain ⟨hnone, p, _, _, hblank, hins, houts, rfl⟩ := declareProc_eq_ok hr
  have hcurrent := h.current_eq_none hnone
  have hblocks : r.code.blocks = [] := Within.eq_nil_of_none (hcurrent ▸ h.within)
  have hp : p.WellFormed r.symbols.structs.length :=
    ⟨hins, houts, by simp [hblank.locals], by simp [hblank.localStructs]⟩
  have hnests : Nests r.code.ops.length ⟨.procBegin r.symbols.procs.length, loc⟩ r.code.blocks
      (⟨.procBlock r.symbols.procs.length, r.code.ops.length, loc⟩ :: r.code.blocks) := by
    rw [hblocks]
    exact .procBegin
  refine h.emit (.of_append (Nat.le_refl _) (List.append_nil _).symm rfl) (h.tables.addProc hp)
    (by simp [OpKind.Valid, Symbols.addProc]) hnests (by rw [hblocks]; exact .body rfl) ?_ ?_
  · rintro _ ⟨rfl⟩
    exact ⟨p, by simp [Symbols.addProc], by simp [hblank.bindings, Block.bound, hblocks]⟩
  · intro id hid
    rcases Nat.lt_succ_iff_lt_or_eq.mp (by simpa [Symbols.addProc] using hid) with hid | rfl
    · exact .inl hid
    · exact .inr rfl

/-- Every move of resolution keeps the code properly nested. -/
theorem Sound.move (h : Sound r) {t : Token} (hmove : Move eof r t rest r' used) : Sound r' := by
  cases hmove with
  | literal ht hp =>
    have hc : r.current ≠ none := by simp [(procedure?_eq_some.mp hp).1]
    exact h.emitAll hc (Value.usable_of_pushes (declared_of_literal? ht _) _) t.loc
  | @string text id p ht hp =>
    have hc : r.current ≠ none := by simp [(procedure?_eq_some.mp hp).1]
    have hstrings : Sound { r with strings := (r.strings.intern text).1 } :=
      ⟨h.tables, h.ops, h.nested, h.within, h.current, h.begun⟩
    have hkind (id : Nat) : (OpKind.pushStr id).Usable r.symbols r.names := ⟨rfl, trivial, nofun⟩
    exact hstrings.emitAll hc (List.forall_mem_singleton.mpr (hkind _)) t.loc
  | word ht hm hc => exact h.emitAll hc (usable_of_lookup h.tables hm) t.loc
  | openIf ht hp =>
    have hc : r.current ≠ none := by simp [(procedure?_eq_some.mp hp).1]
    exact h.emit_block trivial (.ifBegin (h.within.ne_nil hc)) (h.within.cons hc nofun) rfl
  | openElse ht hb hk =>
    have hwithin := hb ▸ h.within
    refine h.emit_block trivial (hb ▸ .ifElse hk rfl) ?_ (by simp [hb, Block.bound, hk])
    exact (hwithin.tail (by simp [hk])).cons hwithin.current_ne_none nofun
  | @openLet id p names ht hp hnames hne =>
    have hc : r.current ≠ none := by simp [(procedure?_eq_some.mp hp).1]
    refine h.emit_scope hp trivial (.bind (h.within.ne_nil hc)) (h.within.cons hc nofun) ?_
    rw [List.length_append, h.bindings_length hp, Nat.add_comm]
    rfl
  | closeIf ht hb hk =>
    refine h.emit_block trivial (hb ▸ .ifEnd hk rfl) ((hb ▸ h.within).tail (by simp [hk])) ?_
    simp [hb, Block.bound, hk]
  | closeElse ht hb hk =>
    refine h.emit_block trivial (hb ▸ .elseEnd hk rfl) ((hb ▸ h.within).tail (by simp [hk])) ?_
    simp [hb, Block.bound, hk]
  | closeLet ht hb hk hp hcount =>
    refine h.emit_scope hp trivial (hb ▸ .unbind hk) ((hb ▸ h.within).tail (by simp [hk])) ?_
    have hlen := h.bindings_length hp
    simp only [hb, Block.bound, hk] at hlen
    rw [List.length_take]
    omega
  | @closeProc b blocks id ht hb hk =>
    have hwithin := hb ▸ h.within
    obtain rfl := hwithin.eq_nil hk
    obtain ⟨p, hp, _⟩ := h.current id (hwithin.current_eq hk)
    exact h.emit (.refl _) h.tables (List.getElem?_eq_some_iff.mp hp).1 (hb ▸ .procEnd hk) .outside
      (by simp) fun _ hid => .inl hid
  | declare ht hm hs hshape hproc hr =>
    exact h.extend (declareShape_extends h.tables (Shape.declared_of_classify h.tables hshape)
      hproc hr)
  | declareProc ht hm hs hshape hr => exact h.declareProc hr

theorem Sound.step (h : Sound r) {t : Token} (hr : r.step eof t rest = .ok (r', used)) :
    Sound r' :=
  h.move (step_move hr)

/-- The code is properly nested at every point of a resolution. -/
theorem Reaches.sound {start : Resolution} {ts : List Token} (h : Reaches eof start ts r rest)
    (hstart : Sound start) : Sound r := by
  induction h with
  | start => exact hstart
  | step h hstep ih => exact ih.step hstep

end Resolution

/-- A program is resolved when the last point of its resolution has no open blocks. -/
theorem Program.exists_reaches {file source : String} {p : Program}
    (h : Program.ofSource file source = .ok p) :
    ∃ s r, TokenStream.ofSource file source = .ok s ∧
      Resolution.Reaches s.eof {} s.tokens r [] ∧ r.code.blocks = [] ∧
      p = ⟨r.strings, r.symbols, r.code.ops⟩ := by
  obtain ⟨s, hs, h⟩ := bind_eq_ok h
  obtain ⟨r, hr, h⟩ := bind_eq_ok h
  obtain ⟨ops, hops, h⟩ := bind_eq_ok h
  cases h
  unfold Code.finish at hops
  split at hops
  · rename_i hblocks
    cases hops
    exact ⟨s, r, hs, Resolution.reaches_of_run hr, hblocks, rfl⟩
  · cases hops

/-- The operations of a resolved program are properly nested, no block is left open, and all that
they refer to is declared. -/
structure Program.Sound (p : Program) : Prop where
  tables : p.symbols.WellFormed
  ops : ∀ op ∈ p.ops, op.kind.Valid p.symbols
  nested : NestsAll 0 p.ops [] []
  begun : ∀ id < p.symbols.procs.length, ∃ op ∈ p.ops, op.kind = .procBegin id

theorem Program.sound_of_source {file source : String} {p : Program}
    (h : Program.ofSource file source = .ok p) : p.Sound := by
  obtain ⟨s, r, _, hreaches, hblocks, rfl⟩ := Program.exists_reaches h
  have hsound := hreaches.sound .empty
  exact ⟨hsound.tables, hsound.ops, hblocks ▸ hsound.nested, hsound.begun⟩

end StackEffect
