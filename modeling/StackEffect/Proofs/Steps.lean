import StackEffect.Proofs.Declarations
import StackEffect.Resolution.Step

/-! # The steps of resolution

What a token can do to the state of resolution is said once, in `Resolution.Move`. The points of a
resolution are the states between its steps, each with the tokens that are still to be read.
-/

namespace StackEffect

/-- A literal stands for the operations that push its value. -/
theorem Value.pushes_bool (b : Bool) : (Value.bool b).pushes = [.pushBool b] := by
  cases b <;> rfl

namespace Resolution

/-- The moves of resolution at a token, given the tokens behind it. The number says how many of
those are used. -/
inductive Move (eof : Location) (r : Resolution) (t : Token) (rest : List Token) :
    Resolution → Nat → Prop
  | literal {v : Value} {id : Nat} {p : Procedure} (ht : t.kind.literal? = some v)
      (hp : r.procedure? = some (id, p)) : Move eof r t rest (r.emitAll v.pushes t.loc) 0
  | string {text : String} {id : Nat} {p : Procedure} (ht : t.kind = .str text)
      (hp : r.procedure? = some (id, p)) :
      Move eof r t rest (({ r with strings := (r.strings.intern text).1 } : Resolution).emitAll
        [.pushStr (r.strings.intern text).2] t.loc) 0
  | word {text : String} {m : Meaning} (ht : t.kind = .word text)
      (hm : r.lookup text t.loc = .ok (some m)) (hc : r.current ≠ none) :
      Move eof r t rest (r.emitAll m.ops t.loc) 0
  | openIf {id : Nat} {p : Procedure} (ht : t.kind = .keyword .ifKw)
      (hp : r.procedure? = some (id, p)) :
      Move eof r t rest { r with code := r.code.openBlock .ifBlock .ifBegin t.loc } 0
  | openElse {b : Block} {blocks : List Block} (ht : t.kind = .keyword .elseKw)
      (hb : r.code.blocks = b :: blocks) (hk : b.kind = .ifBlock) :
      Move eof r t rest { r with
        code := ⟨r.code.ops ++ [⟨.ifElse b.opener, t.loc⟩],
          ⟨.elseBlock, b.opener, t.loc⟩ :: blocks⟩ } 0
  | openLet {id : Nat} {p : Procedure} {names : List String} (ht : t.kind = .keyword .letKw)
      (hp : r.procedure? = some (id, p)) (hnames : letNames t.loc eof [] rest = .ok names)
      (hne : names ≠ []) :
      Move eof r t rest { r.setProcedure id { p with bindings := p.bindings ++ names } with
        code := r.code.openBlock (.letBlock names.length) (.bind names.length) t.loc }
        (names.length + 1)
  | closeIf {b : Block} {blocks : List Block} (ht : t.kind = .keyword .endKw)
      (hb : r.code.blocks = b :: blocks) (hk : b.kind = .ifBlock) :
      Move eof r t rest { r with code := ⟨r.code.ops ++ [⟨.ifEnd b.opener, t.loc⟩], blocks⟩ } 0
  | closeElse {b : Block} {blocks : List Block} (ht : t.kind = .keyword .endKw)
      (hb : r.code.blocks = b :: blocks) (hk : b.kind = .elseBlock) :
      Move eof r t rest { r with code := ⟨r.code.ops ++ [⟨.elseEnd b.opener, t.loc⟩], blocks⟩ } 0
  | closeLet {b : Block} {blocks : List Block} {count id : Nat} {p : Procedure}
      (ht : t.kind = .keyword .endKw) (hb : r.code.blocks = b :: blocks)
      (hk : b.kind = .letBlock count) (hp : r.procedure? = some (id, p))
      (hcount : count ≤ p.bindings.length) :
      Move eof r t rest { r.setProcedure id
          { p with bindings := p.bindings.take (p.bindings.length - count) } with
        code := ⟨r.code.ops ++ [⟨.unbind count, t.loc⟩], blocks⟩ } 0
  | closeProc {b : Block} {blocks : List Block} {id : Nat} (ht : t.kind = .keyword .endKw)
      (hb : r.code.blocks = b :: blocks) (hk : b.kind = .procBlock id) :
      Move eof r t rest { r with
        code := ⟨r.code.ops ++
          [⟨.procEnd id ((r.symbols.procs[id]?).elim 0 (·.memory.size)), t.loc⟩], blocks⟩
        current := none } 0
  | declare {text : String} {shape : Shape} {r' : Resolution} {used : Nat}
      (ht : t.kind = .word text) (hm : r.lookup text t.loc = .ok none)
      (hs : r.symbols.findStruct? text = none)
      (hshape : Shape.classify r.symbols text t.loc eof rest = .ok shape) (hproc : shape ≠ .proc)
      (hr : r.declareShape eof text t.loc rest shape = .ok (r', used)) : Move eof r t rest r' used
  | declareProc {text : String} {r' : Resolution} {used : Nat} (ht : t.kind = .word text)
      (hm : r.lookup text t.loc = .ok none) (hs : r.symbols.findStruct? text = none)
      (hshape : Shape.classify r.symbols text t.loc eof rest = .ok .proc)
      (hr : r.declareProc text t.loc rest = .ok (r', used)) : Move eof r t rest r' used

variable {r r' : Resolution} {loc eof : Location} {t : Token} {rest : List Token} {used : Nat}

theorem requireProcedure_eq_ok {what : String} {id : Nat} {p : Procedure} :
    r.requireProcedure what loc = .ok (id, p) ↔ r.procedure? = some (id, p) := by
  unfold requireProcedure
  cases r.procedure? with
  | none => simp
  | some found => simp

theorem close_eq_ok {c code : Code} {b : Block} (h : c.close loc = .ok (b, code)) :
    ∃ blocks, c.blocks = b :: blocks ∧
      code = ⟨c.ops ++ (Code.closer? b).toList.map (⟨·, loc⟩), blocks⟩ := by
  rw [Code.close_eq] at h
  split at h
  · cases h
  · rename_i b' blocks hblocks
    cases h
    exact ⟨blocks, hblocks, rfl⟩

theorem literal_move {kind : OpKind} {v : Value} (ht : t.kind.literal? = some v)
    (hv : v.pushes = [kind]) (h : (r.literal kind t.loc).map (·, 0) = .ok (r', used)) :
    Move eof r t rest r' used := by
  obtain ⟨next, hnext, heq⟩ := map_eq_ok h
  obtain ⟨⟨id, p⟩, hproc, hnext⟩ := bind_eq_ok hnext
  cases hnext
  cases heq
  rw [← hv]
  exact .literal ht (requireProcedure_eq_ok.mp hproc)

theorem openElse_move (ht : t.kind = .keyword .elseKw) (h : r.openElse t.loc = .ok r') :
    Move eof r t rest r' 0 := by
  obtain ⟨code, hcode, hr⟩ := bind_eq_ok h
  cases hr
  rw [Code.openElse_eq] at hcode
  split at hcode
  · cases hcode
  · rename_i b blocks hblocks
    split at hcode
    · rename_i hk
      cases hcode
      exact .openElse ht hblocks hk
    · cases hcode

theorem openLet_move (ht : t.kind = .keyword .letKw)
    (h : r.openLet t.loc eof rest = .ok (r', used)) : Move eof r t rest r' used := by
  obtain ⟨⟨id, p⟩, hproc, hr⟩ := bind_eq_ok h
  obtain ⟨names, hnames, hr⟩ := bind_eq_ok hr
  simp only at hr
  split at hr
  · cases hr
  · rename_i hne
    cases hr
    exact .openLet ht (requireProcedure_eq_ok.mp hproc) hnames (by simpa using hne)

theorem closeBlock_move (ht : t.kind = .keyword .endKw) (h : r.closeBlock t.loc = .ok r') :
    Move eof r t rest r' 0 := by
  obtain ⟨⟨b, code⟩, hclose, hr⟩ := bind_eq_ok h
  obtain ⟨blocks, hblocks, rfl⟩ := close_eq_ok hclose
  cases hk : b.kind with
  | ifBlock =>
    simp only [hk, Code.closer?] at hr
    cases hr
    exact .closeIf ht hblocks hk
  | elseBlock =>
    simp only [hk, Code.closer?] at hr
    cases hr
    exact .closeElse ht hblocks hk
  | procBlock id =>
    simp only [hk, Code.closer?, Option.toList_none, List.map_nil, List.append_nil] at hr
    cases hr
    exact .closeProc ht hblocks hk
  | letBlock count =>
    simp only [hk, Code.closer?, Option.toList_none, List.map_nil, List.append_nil] at hr
    obtain ⟨⟨id, p⟩, hproc, hr⟩ := bind_eq_ok hr
    simp only at hr
    split at hr
    · cases hr
    · rename_i hcount
      cases hr
      exact .closeLet ht hblocks hk (requireProcedure_eq_ok.mp hproc) (Nat.not_lt.mp hcount)

theorem keyword_move {k : Keyword} (ht : t.kind = .keyword k)
    (h : r.keyword k t.loc eof rest = .ok (r', used)) : Move eof r t rest r' used := by
  unfold keyword at h
  split at h
  · obtain ⟨next, hnext, heq⟩ := map_eq_ok h
    obtain ⟨⟨id, p⟩, hproc, hnext⟩ := bind_eq_ok hnext
    cases hnext
    cases heq
    exact .openIf ht (requireProcedure_eq_ok.mp hproc)
  · obtain ⟨next, hnext, heq⟩ := map_eq_ok h
    cases heq
    exact openElse_move ht hnext
  · obtain ⟨next, hnext, heq⟩ := map_eq_ok h
    cases heq
    exact closeBlock_move ht hnext
  · exact openLet_move ht h
  · cases h

theorem word_move {text : String} (ht : t.kind = .word text)
    (h : r.word text t.loc eof rest = .ok (r', used)) : Move eof r t rest r' used := by
  obtain ⟨meaning, hlookup, hr⟩ := bind_eq_ok h
  cases meaning with
  | none =>
    simp only [Resolution.declare] at hr
    split at hr
    · cases hr
    · rename_i hstruct
      obtain ⟨shape, hshape, hr⟩ := bind_eq_ok hr
      by_cases hproc : shape = .proc
      · subst hproc
        exact .declareProc ht hlookup hstruct hshape hr
      · exact .declare ht hlookup hstruct hshape hproc hr
  | some m =>
    simp only at hr
    split at hr
    · cases hr
    · rename_i hc
      cases hr
      exact .word ht hlookup hc

/-- Every step of resolution is one of its moves. -/
theorem step_move (h : r.step eof t rest = .ok (r', used)) : Move eof r t rest r' used := by
  unfold step at h
  split at h
  · rename_i n hk
    exact literal_move (v := .int n) (by simp [hk, TokenKind.literal?]) rfl h
  · rename_i b hk
    exact literal_move (v := .bool b) (by simp [hk, TokenKind.literal?]) (Value.pushes_bool b) h
  · rename_i n hk
    exact literal_move (v := .ptr n) (by simp [hk, TokenKind.literal?]) rfl h
  · rename_i text hk
    obtain ⟨next, hnext, heq⟩ := map_eq_ok h
    obtain ⟨⟨id, p⟩, hproc, hnext⟩ := bind_eq_ok hnext
    cases hnext
    cases heq
    exact .string hk (requireProcedure_eq_ok.mp hproc)
  · rename_i k hk
    exact keyword_move hk h
  · rename_i text hk
    exact word_move hk h

/-- Every move is a step of resolution. -/
theorem Move.step_eq (h : Move eof r t rest r' used) : r.step eof t rest = .ok (r', used) := by
  have hrequire {what : String} {id : Nat} {p : Procedure} (hp : r.procedure? = some (id, p)) :
      r.requireProcedure what t.loc = .ok (id, p) := requireProcedure_eq_ok.mpr hp
  cases h with
  | @literal v id p ht hp =>
    unfold step
    cases hk : t.kind with
    | int | ptr =>
      rw [hk] at ht
      cases ht
      simp [Resolution.literal, hrequire hp, Except.map, Value.pushes, Value.int, Value.ptr]
    | bool b =>
      rw [hk] at ht
      cases ht
      simp [Resolution.literal, hrequire hp, Except.map, Value.pushes_bool]
    | keyword | word | str =>
      rw [hk] at ht
      cases ht
  | string ht hp => simp [step, ht, stringLiteral, hrequire hp, Except.map]
  | word ht hm hc => simp [step, ht, Resolution.word, hm, hc]
  | openIf ht hp => simp [step, ht, keyword, Resolution.openIf, hrequire hp, Except.map]
  | openElse ht hb hk =>
    simp [step, ht, keyword, Resolution.openElse, Code.openElse_eq, hb, hk, Except.map]
  | openLet ht hp hnames hne =>
    simp [step, ht, keyword, Resolution.openLet, hrequire hp, hnames, hne, setProcedure]
  | closeIf ht hb hk | closeElse ht hb hk | closeProc ht hb hk =>
    simp [step, ht, keyword, closeBlock, Code.close_eq, hb, hk, Code.closer?, Except.map, Code.emitAll,
      Resolution.closeProc, emitAll]
  | closeLet ht hb hk hp hcount =>
    obtain ⟨hid, hget⟩ := procedure?_eq_some.mp hp
    simp [step, ht, keyword, closeBlock, Code.close_eq, hb, hk, Code.closer?, Except.map, Code.emitAll,
      Resolution.closeLet, requireProcedure, procedure?, hid, hget, Nat.not_lt.mpr hcount,
      setProcedure, emitAll]
  | declare ht hm hs hshape hproc hr =>
    simp [step, ht, Resolution.word, hm, Resolution.declare, hs, hshape, hr]
  | declareProc ht hm hs hshape hr =>
    simp [step, ht, Resolution.word, hm, Resolution.declare, hs, hshape, declareShape, hr]

/-- The points that a resolution passes from a state on, each with the tokens still to be read. -/
inductive Reaches (eof : Location) (start : Resolution) (ts : List Token) :
    Resolution → List Token → Prop
  | start : Reaches eof start ts start ts
  | step {r r' : Resolution} {t : Token} {rest : List Token} {used : Nat}
      (h : Reaches eof start ts r (t :: rest)) (hstep : r.step eof t rest = .ok (r', used)) :
      Reaches eof start ts r' (rest.drop used)

theorem Reaches.suffix {start : Resolution} {ts : List Token} (h : Reaches eof start ts r rest) :
    rest <:+ ts := by
  induction h with
  | start => exact List.suffix_refl ts
  | step h hstep ih =>
    exact (List.drop_suffix _ _).trans ((List.suffix_cons _ _).trans ih)

theorem Reaches.run {start : Resolution} {all ts : List Token} {skip : Nat}
    (h : Reaches eof start all r (ts.drop skip)) (hr : run eof skip r ts = .ok r') :
    Reaches eof start all r' [] := by
  induction ts generalizing skip r with
  | nil =>
    cases skip <;> cases hr <;> simpa using h
  | cons t ts ih =>
    cases skip with
    | succ skip => exact ih h hr
    | zero =>
      simp only [Resolution.run] at hr
      split at hr
      · rename_i next used hstep
        exact ih (.step h hstep) hr
      · cases hr

theorem run_drop (eof : Location) (skip : Nat) (r : Resolution) (ts : List Token) :
    Resolution.run eof skip r ts = Resolution.run eof 0 r (ts.drop skip) := by
  induction ts generalizing skip with
  | nil => cases skip <;> rfl
  | cons t ts ih =>
    cases skip with
    | zero => rfl
    | succ skip => exact ih skip

/-- A resolution goes the same way from each of its points on. -/
theorem Reaches.run_eq {start : Resolution} {ts : List Token} (h : Reaches eof start ts r rest) :
    Resolution.run eof 0 start ts = Resolution.run eof 0 r rest := by
  induction h with
  | start => rfl
  | step h hstep ih =>
    rw [ih, ← run_drop]
    simp only [Resolution.run, hstep]

/-- A resolution that succeeds gets to the end of its tokens. -/
theorem reaches_of_run {ts : List Token} (hr : run eof 0 r ts = .ok r') :
    Reaches eof r ts r' [] := by
  have hstart : Reaches eof r ts r (ts.drop 0) := .start
  exact hstart.run hr

/-- From each of its points a resolution gets to the same end. -/
theorem Reaches.to_last {start last : Resolution} {ts : List Token}
    (h : Reaches eof start ts r rest) (hlast : Reaches eof start ts last []) :
    Reaches eof r rest last [] := by
  apply reaches_of_run
  rw [← h.run_eq, hlast.run_eq]
  rfl

end Resolution

end StackEffect
