import StackEffect.Proofs.Names
import StackEffect.Proofs.OneLine

/-! # Where resolution fails

A step of resolution fails at the token it reads, at one of the tokens behind, or at the end of the
text. Its fault quotes words of the text, names from the tables, and spellings of tokens, types and
blocks. It never fails because a `let` takes back more names than are bound.
-/

namespace StackEffect

def Faults {α : Type} (P : Fault → Prop) (x : Except Fault α) : Prop :=
  ∀ f, x = .error f → P f

namespace Faults

variable {α β : Type} {P : Fault → Prop}

theorem ok (a : α) : Faults P (.ok a) := nofun

theorem error {f : Fault} (h : P f) : Faults P (.error f : Except Fault α) := by
  rintro _ ⟨rfl⟩
  exact h

theorem bind {x : Except Fault α} {f : α → Except Fault β} (hx : Faults P x)
    (hf : ∀ a, x = .ok a → Faults P (f a)) : Faults P (x >>= f) := by
  cases x with
  | error e => exact .error (hx e rfl)
  | ok a => exact hf a rfl

theorem map {x : Except Fault α} (hx : Faults P x) (f : α → β) : Faults P (x.map f) := by
  cases x with
  | error e => exact .error (hx e rfl)
  | ok a => exact .ok (f a)

theorem mapM {f : α → Except Fault β} {as : List α} (hf : ∀ a ∈ as, Faults P (f a)) :
    Faults P (as.mapM f) := by
  induction as with
  | nil => exact .ok []
  | cons a as ih =>
    obtain ⟨ha, has⟩ := List.forall_mem_cons.mp hf
    rw [List.mapM_cons]
    exact ha.bind fun b _ => (ih has).bind fun bs _ => .ok (b :: bs)

end Faults

/-- A fault at one of some places. All that it and its remarks quote are texts with a property. -/
structure Fault.Within (P : Location → Prop) (Q : String → Prop) (f : Fault) : Prop where
  loc : P f.loc
  cause : ∀ text ∈ f.cause.texts, Q text
  notes : ∀ n ∈ f.notes, ∀ text ∈ n.remark.texts, Q text

/-- A fault of a step of resolution is not about the scope of names. -/
structure Fault.OfStep (P : Location → Prop) (Q : String → Prop) (f : Fault) : Prop
    extends f.Within P Q where
  scope : ∀ count bound, f.cause ≠ .bindingScope count bound

/-- A token at one of some places. If it is a word, the word has a property. -/
structure Token.Within (P : Location → Prop) (Q : String → Prop) (t : Token) : Prop where
  loc : P t.loc
  word : ∀ w, t.kind = .word w → Q w

variable {P : Location → Prop} {Q : String → Prop}

@[simp] theorem Cause.within_fault {c : Cause} {loc : Location} :
    (c.fault loc).Within P Q ↔ P loc ∧ ∀ text ∈ c.texts, Q text :=
  ⟨fun h => ⟨h.loc, h.cause⟩, fun h => ⟨h.1, h.2, by simp [Cause.fault]⟩⟩

@[simp] theorem Fault.within_note {f : Fault} {m : Remark} {loc : Location} :
    (f.note m loc).Within P Q ↔ f.Within P Q ∧ ∀ text ∈ m.texts, Q text := by
  constructor
  · intro h
    obtain ⟨hbefore, hlast⟩ := List.forall_mem_append.mp h.notes
    exact ⟨⟨h.loc, h.cause, hbefore⟩, hlast _ List.mem_cons_self⟩
  · rintro ⟨h, hm⟩
    exact ⟨h.loc, h.cause, List.forall_mem_append.mpr ⟨h.notes, List.forall_mem_singleton.mpr hm⟩⟩

theorem Token.within_of_drop {ts : List Token} (hts : ∀ t ∈ ts, t.Within P Q) (skip : Nat) :
    ∀ t ∈ ts.drop skip, t.Within P Q :=
  fun t ht => hts t (List.mem_of_mem_drop ht)

attribute [local simp] Cause.texts Remark.texts

variable {sym : Symbols} {loc eof : Location} {name what : String}

theorem Folded.single_faults (f : Folded) (hwhat : Q what) (hloc : P loc) :
    Faults (Fault.OfStep P Q) (f.single what loc) := by
  unfold single
  split
  · exact .error ⟨by simp [hwhat, hloc], nofun⟩
  · exact .ok _
  · exact .error ⟨by simp [hwhat, hloc], nofun⟩

theorem Folded.expect_faults (f : Folded) (count : Nat) (mayElide : Bool) (hwhat : Q what)
    (hloc : P loc) : Faults (Fault.OfStep P Q) (f.expect count mayElide what loc) := by
  unfold expect
  split
  · exact .ok _
  · refine .map ?_ _
    unfold require
    split
    · exact .error ⟨by simp [hwhat, hloc], nofun⟩
    · split
      · exact .ok _
      · exact .error ⟨by simp [hwhat, hloc], nofun⟩

variable (hQ : Quotable Q)

include hQ

theorem letNames_faults (heof : P eof) {ts : List Token} (hts : ∀ t ∈ ts, t.Within P Q)
    (names : List String) : Faults (Fault.OfStep P Q) (letNames loc eof names ts) := by
  induction ts generalizing names with
  | nil =>
    have hlet : Q "`let`" := hQ.line (by decide)
    exact .error ⟨by simp [hlet, heof], nofun⟩
  | cons t ts ih =>
    obtain ⟨ht, hts⟩ := List.forall_mem_cons.mp hts
    unfold letNames
    split
    · exact .ok _
    · exact ih hts _
    · exact .error ⟨by simp [hQ.describe ht.word, ht.loc], nofun⟩

theorem Shape.classify_faults (hname : Q name) (hloc : P loc) (heof : P eof) {rest : List Token}
    (hrest : ∀ t ∈ rest, t.Within P Q) :
    Faults (Fault.OfStep P Q) (classify sym name loc eof rest) := by
  unfold classify
  split
  · unfold ofPlain
    split
    · exact .ok _
    · split
      · exact .ok _
      · exact .error ⟨by simp [hname, hloc], nofun⟩
    · exact .error ⟨by simp [hname, hloc], nofun⟩
  · unfold ofColon
    split
    · exact .error ⟨by simp [hname, heof], nofun⟩
    · rename_i t tail htokens
      have hmem : t ∈ rest.drop 1 := htokens ▸ List.mem_cons_self
      have ht := hrest t (List.mem_of_mem_drop hmem)
      split
      · rename_i w hw
        split
        · exact .ok _
        · split
          · exact .ok _
          · exact .error ⟨by simp [hname, ht.word w hw, ht.loc], nofun⟩
      · exact .ok _
      · exact .error ⟨by simp [hname, hQ.describe ht.word, ht.loc], nofun⟩
  · exact .ok _
  · have hthird : P ((rest[2]?).elim loc (·.loc)) := by
      cases hget : rest[2]? with
      | none => exact hloc
      | some t => exact (hrest t (List.mem_of_getElem? hget)).loc
    exact .error ⟨by simp [hname, hthird], nofun⟩

section Structs

variable (hsym : ∀ d ∈ sym.structs, Q d.name)

include hsym

namespace Fold

theorem binary_faults {word : String} (hword : Q word) (hloc : P loc)
    {f : Value → Value → Except Fault Value} (hf : ∀ a b, Faults (Fault.OfStep P Q) (f a b))
    (st : List Value) : Faults (Fault.OfStep P Q) (binary sym word loc f st) := by
  unfold binary
  split
  · split
    · exact (hf _ _).map _
    · exact .error ⟨by simp [hword, hQ.typeName hsym, hloc], nofun⟩
  · exact .error ⟨by simp [hword, hloc], nofun⟩

theorem intrinsic?_faults {i : Intrinsic} {effect : List Value → Except Fault (List Value)}
    (hi : intrinsic? sym loc i = some effect) (hloc : P loc) (st : List Value) :
    Faults (Fault.OfStep P Q) (effect st) := by
  have hname := hQ.line i.oneLine_name
  cases i with
  | dup | drop | swap | dupUnder | rot =>
    cases hi
    simp only
    split
    · exact .ok _
    · exact .error ⟨by simp [hname, hloc], nofun⟩
  | add | sub | eq | ne =>
    cases hi
    exact binary_faults hQ hsym hname hloc (fun a b => .ok _) st
  | mul =>
    cases hi
    refine binary_faults hQ hsym hname hloc (fun a b => ?_) st
    unfold product
    split
    · exact .ok _
    · exact .error ⟨by simp [hQ.typeName hsym, hloc], nofun⟩
  | _ => cases hi

theorem word_faults {text : String} (htext : Q text) (hloc : P loc) (st : List Value) :
    Faults (Fault.OfStep P Q) (word sym text loc st) := by
  unfold word
  split
  · rename_i effect heffect
    obtain ⟨i, _, hi⟩ := Option.bind_eq_some_iff.mp heffect
    exact intrinsic?_faults hQ hsym hi hloc st
  · split
    · rename_i target htarget
      unfold cast
      split
      · exact .error ⟨by simp [hQ.strip htarget htext, hloc], nofun⟩
      · exact .ok _
      · exact .error ⟨by simp [htext, hloc], nofun⟩
    · unfold constant
      split
      · exact .ok _
      · split
        · exact .ok _
        · exact .error ⟨by simp [htext, hloc], nofun⟩

theorem token_faults {t : Token} (ht : t.Within P Q) (st : List Value) :
    Faults (Fault.OfStep P Q) (token sym t st) := by
  have hdescribe := hQ.describe ht.word
  unfold token
  split
  · exact .ok _
  · exact .ok _
  · exact .ok _
  · rename_i text hkind
    exact word_faults hQ hsym (ht.word text hkind) ht.loc st
  · exact .error ⟨by simp [hdescribe, ht.loc], nofun⟩
  · exact .error ⟨by simp [hdescribe, ht.loc], nofun⟩

theorem run_faults (heof : P eof) {ts : List Token} (hts : ∀ t ∈ ts, t.Within P Q) (st : List Value)
    (count : Nat) : Faults (Fault.OfStep P Q) (run sym eof st count ts) := by
  induction ts generalizing st count with
  | nil => exact .error ⟨by simp [heof], nofun⟩
  | cons t ts ih =>
    obtain ⟨ht, hts⟩ := List.forall_mem_cons.mp hts
    unfold run
    split
    · exact .ok _
    · split
      · exact ih hts _ _
      · rename_i f hf
        exact .error (token_faults hQ hsym ht st f hf)

end Fold

theorem Symbols.checkType_faults (v : Value) (expected : Ty) (hwhat : Q what) (hloc : P loc) :
    Faults (Fault.OfStep P Q) (sym.checkType v expected what loc) := by
  unfold checkType
  split
  · exact .ok _
  · exact .error ⟨by simp [hwhat, hQ.typeName hsym, hloc], nofun⟩

theorem Symbols.memberValues_faults {d : StructDef} (hd : ∀ m ∈ d.members, Q m.name)
    (folded : Folded) (mayElide : Bool) (hwhat : Q what) (hloc : P loc) :
    Faults (Fault.OfStep P Q) (sym.memberValues d folded mayElide what loc) := by
  refine (folded.expect_faults _ mayElide hwhat hloc).bind fun found _ => ?_
  cases found with
  | none => exact .ok _
  | some values =>
    refine .mapM fun p hp => checkType_faults hQ hsym p.1 p.2.ty ?_ hloc
    have hmember := hd p.2 (List.of_mem_zip hp).2
    exact hQ.append (hQ.between hmember (by decide) (by decide)) hwhat

theorem structMembers_faults (hname : Q name) (heof : P eof) {ts : List Token}
    (hts : ∀ t ∈ ts, t.Within P Q) (members : List Member) (count : Nat) :
    Faults (Fault.OfStep P Q) (structMembers sym name loc eof members count ts) := by
  fun_induction structMembers sym name loc eof members count ts with
  | case1 => exact .error ⟨by simp [hname, heof], by simp⟩
  | case2 => exact .ok _
  | case3 _ _ t _ m hm =>
    have ht := hts t List.mem_cons_self
    exact .error ⟨by simp [hname, ht.word m hm, ht.loc], by simp⟩
  | case4 => exact .error ⟨by simp [hname, heof], by simp⟩
  | case5 _ _ _ _ _ _ u =>
    have hu := hts u (by simp)
    exact .error ⟨by simp [hname, hQ.describe hu.word, hu.loc], by simp⟩
  | case6 _ _ _ _ _ _ _ _ _ _ ih => exact ih (by simp)
  | case7 _ _ _ _ _ _ _ _ _ _ _ _ _ ih =>
    exact ih fun t ht => hts t (List.mem_cons_of_mem _ (List.mem_cons_of_mem _ ht))
  | case8 _ _ _ _ _ _ _ _ _ _ _ _ _ _ _ ih => exact ih fun t ht => hts t (by simp [ht])
  | case9 _ _ t m hm _ _ _ _ d =>
    have hmember := (hts t List.mem_cons_self).word m hm
    have hd := hts d (by simp)
    have hgiven (ty : Ty) := hQ.line ty.oneLine_text
    exact .error ⟨by simp [hmember, hQ.typeName hsym, hgiven, hd.loc], by simp⟩
  | case10 _ _ t =>
    have ht := hts t List.mem_cons_self
    exact .error ⟨by simp [hname, hQ.describe ht.word, ht.loc], by simp⟩

end Structs

/-- Code that is not finished is at fault at the end of the text. -/
theorem Code.finish_faults (c : Code) (heof : P eof) :
    Faults (Fault.OfStep P Q) (c.finish eof) := by
  have hblock (b : BlockKind) := hQ.line b.oneLine_describe
  unfold finish
  split
  · exact .ok _
  · exact .error ⟨by simp [Block.fault, hblock, heof], nofun⟩

namespace Resolution

variable {r : Resolution} {rest : List Token}

omit hQ in
theorem requireProcedure_faults (hwhat : Q what) (hloc : P loc) :
    Faults (Fault.OfStep P Q) (r.requireProcedure what loc) := by
  unfold requireProcedure
  split
  · exact .ok _
  · exact .error ⟨by simp [hwhat, hloc], nofun⟩

theorem lookup_faults {text : String} (htext : Q text) (hloc : P loc) :
    Faults (Fault.OfStep P Q) (r.lookup text loc) := by
  unfold lookup
  split
  · exact .ok _
  · split
    · rename_i target htarget
      split
      · exact .ok _
      · exact .error ⟨by simp [hQ.strip htarget htext, hloc], nofun⟩
    · exact .ok _

theorem closeBlock_faults (h : Sound r) (hloc : P loc) :
    Faults (Fault.OfStep P Q) (r.closeBlock loc) := by
  have hclose : Faults (Fault.OfStep P Q) (r.code.close loc) := by
    rw [Code.close_eq]
    split
    · exact .error ⟨by simp [hloc], nofun⟩
    · exact .ok _
  refine hclose.bind fun closed hclosed => ?_
  obtain ⟨b, code⟩ := closed
  obtain ⟨blocks, hblocks, rfl⟩ := close_eq_ok hclosed
  cases hk : b.kind with
  | ifBlock | elseBlock | procBlock id =>
    simp only [hk]
    exact .ok _
  | letBlock count =>
    simp only [hk]
    refine (requireProcedure_faults (hQ.line (by decide)) hloc).bind fun found hfound => ?_
    obtain ⟨id, p⟩ := found
    have hlen := h.bindings_length (p := p) (requireProcedure_eq_ok.mp hfound)
    have hcount : ¬ p.bindings.length < count := by
      simp only [hblocks, Block.bound, hk] at hlen
      omega
    simp only [hcount, if_false]
    exact .ok _

theorem openElse_faults (hloc : P loc) : Faults (Fault.OfStep P Q) (r.openElse loc) := by
  have hblock (b : BlockKind) := hQ.line b.oneLine_describe
  refine Faults.bind ?_ fun code _ => .ok _
  rw [Code.openElse_eq]
  split
  · exact .error ⟨by simp [hloc], nofun⟩
  · split
    · exact .ok _
    · exact .error ⟨by simp [Block.fault, hblock, hloc], nofun⟩

variable (heof : P eof) (hrest : ∀ t ∈ rest, t.Within P Q)

include heof hrest

theorem openLet_faults (hloc : P loc) : Faults (Fault.OfStep P Q) (r.openLet loc eof rest) := by
  refine (requireProcedure_faults (hQ.line (by decide)) hloc).bind fun found _ => ?_
  refine (letNames_faults hQ heof hrest _).bind fun names _ => ?_
  simp only
  split
  · exact .error ⟨by simp [hloc], nofun⟩
  · exact .ok _

variable (hr : r.symbols.AllNames Q)

include hr

omit hQ heof hrest in
theorem name_of_procedure? {id : Nat} {p : Procedure} (hp : r.procedure? = some (id, p)) :
    Q p.name :=
  hr.procs p (List.mem_of_getElem? (procedure?_eq_some.mp hp).2)

theorem fold_faults (skip : Nat) : Faults (Fault.OfStep P Q) (r.fold eof rest skip) :=
  Fold.run_faults hQ hr.structs heof (Token.within_of_drop hrest skip) _ _

theorem declareStruct_faults (hname : Q name) (hloc : P loc) :
    Faults (Fault.OfStep P Q) (r.declareStruct eof name loc rest) := by
  unfold declareStruct
  split
  · rename_i hp
    exact .error ⟨by simp [hname, name_of_procedure? hr hp, hloc], nofun⟩
  · refine (structMembers_faults hQ hr.structs hname heof (Token.within_of_drop hrest 1) _ _).bind
      fun found _ => ?_
    simp only
    split
    · exact .error ⟨by simp [hname, hloc], nofun⟩
    · exact .ok _

theorem declareMemory_faults (hname : Q name) (hloc : P loc) :
    Faults (Fault.OfStep P Q) (r.declareMemory eof name loc rest) := by
  have hwhat : Q s!"memory region `{name}`" := hQ.between hname (by decide) (by decide)
  refine (fold_faults hQ heof hrest hr 1).bind fun folded _ => ?_
  refine (folded.single_faults hwhat hloc).bind fun single _ => ?_
  refine (Symbols.checkType_faults hQ hr.structs single _ hwhat hloc).bind fun value _ => ?_
  simp only
  split
  · split
    · exact .ok _
    · have hspace : Q r.memorySpace := by
        unfold memorySpace
        split <;> exact hQ.line (by decide)
      exact .error ⟨by simp [hspace, hwhat, hloc], nofun⟩
  · exact .error ⟨by simp [hwhat, hloc], nofun⟩

theorem declareShape_faults (hname : Q name) (hloc : P loc) {shape : Shape}
    (hshape : shape.Declared r.symbols) :
    Faults (Fault.OfStep P Q) (r.declareShape eof name loc rest shape) := by
  have hvar : Q s!"variable `{name}`" := hQ.between hname (by decide) (by decide)
  have hconst : Q s!"constant `{name}`" := hQ.between hname (by decide) (by decide)
  have hmembers {id : Nat} {d : StructDef} (hd : r.symbols.structs[id]? = some d) :=
    hr.members d (List.mem_of_getElem? hd)
  have hfold := fold_faults hQ heof hrest hr
  have htype {what : String} (v : Value) (ty : Ty) (hwhat : Q what) :=
    Symbols.checkType_faults hQ hr.structs v ty hwhat hloc
  cases shape with
  | struct => exact declareStruct_faults hQ heof hrest hr hname hloc
  | memory => exact declareMemory_faults hQ heof hrest hr hname hloc
  | untyped value consumed => exact .ok _
  | var ty =>
    refine (hfold 1).bind fun folded _ => ?_
    refine Faults.bind ?_ fun value _ => .ok _
    unfold initialValue
    split
    · exact .ok _
    · exact (folded.single_faults hvar hloc).bind fun v _ => htype v ty hvar
  | const ty =>
    refine (hfold 3).bind fun folded _ => ?_
    refine (folded.single_faults hconst hloc).bind fun single _ => ?_
    exact (htype single ty hconst).bind fun value _ => .ok _
  | structVar id d =>
    refine (hfold 2).bind fun folded _ => ?_
    exact (Symbols.memberValues_faults hQ hr.structs (hmembers hshape) folded _ hvar hloc).bind
      fun values _ => .ok _
  | structConst id d =>
    refine (hfold 4).bind fun folded _ => ?_
    exact (Symbols.memberValues_faults hQ hr.structs (hmembers hshape) folded _ hconst hloc).bind
      fun values _ => .ok _
  | proc =>
    change Faults _ (r.declareProc name loc rest)
    unfold declareProc
    split
    · rename_i hp
      exact .error ⟨by simp [hname, name_of_procedure? hr hp, hloc], nofun⟩
    · exact .ok _

theorem word_faults (hsym : r.symbols.WellFormed) {text : String} (htext : Q text) (hloc : P loc) :
    Faults (Fault.OfStep P Q) (r.word text loc eof rest) := by
  refine (lookup_faults hQ htext hloc).bind fun meaning _ => ?_
  cases meaning with
  | none =>
    change Faults _ (r.declare eof text loc rest)
    unfold declare
    split
    · exact .error ⟨by simp [htext, hloc], nofun⟩
    · exact (Shape.classify_faults hQ htext hloc heof hrest).bind fun shape hshape =>
        declareShape_faults hQ heof hrest hr htext hloc (Shape.declared_of_classify hsym hshape)
  | some m =>
    simp only
    split
    · refine .error ?_
      unfold usedOutside
      simp only
      split
      · exact ⟨by simp [htext, hloc], nofun⟩
      · exact ⟨by simp [htext, hloc], nofun⟩
    · exact .ok _

/-- A step of resolution fails at the token it reads, at one behind, or at the end of the text, and
never because a `let` takes back more names than are bound. It quotes what it reads and names from
the tables. -/
theorem Sound.step_faults (h : Sound r) {t : Token} (ht : t.Within P Q) :
    Faults (Fault.OfStep P Q) (r.step eof t rest) := by
  have hrequire {what : String} (hwhat : OneLine what) :
      Faults (Fault.OfStep P Q) (r.requireProcedure what t.loc) :=
    requireProcedure_faults (hQ.line hwhat) ht.loc
  have hliteral (kind : OpKind) : Faults (Fault.OfStep P Q) (r.literal kind t.loc) :=
    (hrequire (by decide)).bind fun _ _ => .ok _
  unfold Resolution.step
  split
  · exact (hliteral _).map _
  · exact (hliteral _).map _
  · exact (hliteral _).map _
  · exact Faults.map ((hrequire (by decide)).bind fun _ _ => .ok _) _
  · rename_i k _
    unfold keyword
    split
    · exact Faults.map ((hrequire (by decide)).bind fun _ _ => .ok _) _
    · exact (openElse_faults hQ ht.loc).map _
    · exact (closeBlock_faults hQ h ht.loc).map _
    · exact openLet_faults hQ heof hrest ht.loc
    · exact .error ⟨by simp [hQ.line k.oneLine_text, ht.loc], nofun⟩
  · rename_i text hkind
    exact word_faults hQ heof hrest hr h.tables (ht.word text hkind) ht.loc

omit hrest in
theorem Sound.run_faults (h : Sound r) {ts : List Token} (hts : ∀ t ∈ ts, t.Within P Q)
    (skip : Nat) : Faults (Fault.OfStep P Q) (Resolution.run eof skip r ts) := by
  induction ts generalizing r skip with
  | nil => cases skip <;> exact .ok r
  | cons t ts ih =>
    obtain ⟨ht, hrest⟩ := List.forall_mem_cons.mp hts
    cases skip with
    | succ skip => exact ih hr h hrest skip
    | zero =>
      unfold Resolution.run
      split
      · rename_i next used hstep
        have hnext := (step_move hstep).allNames hQ.dotted h (fun u hu => (hts u hu).word) hr
        exact ih hnext (h.step hstep) hrest used
      · rename_i f hf
        exact .error (h.step_faults hQ heof hrest hr ht f hf)

end Resolution

/-- Tokens are rejected at one of them or at the end of the text. -/
theorem Program.ofTokens_faults {s : TokenStream} (heof : P s.eof)
    (hts : ∀ t ∈ s.tokens, t.Within P Q) : Faults (Fault.OfStep P Q) (Program.ofTokens s) := by
  refine (Resolution.Sound.empty.run_faults hQ heof (Symbols.allNames_empty Q) hts 0).bind
    fun r _ => ?_
  exact (r.code.finish_faults hQ heof).bind fun ops _ => .ok _

end StackEffect
