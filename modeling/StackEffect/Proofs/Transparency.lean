import StackEffect.Proofs.DeclarationShapes

/-! # Constants stand for their expressions

An expression that folds to some values pushes them on any stack, so another one that folds to the
same values can take its place. A constant has been given the value of its expression, and declaring
it changes nothing for the words that the expression uses. So its name and its expression can be
exchanged wherever something is folded.
-/

namespace StackEffect

/-! ## Exchanging expressions -/

namespace Fold

variable {sym : Symbols} {eof : Location} {e e' : List Token} {vs : List Value}

/-- The values do not depend on the tokens read before. -/
theorem values_of_count (st : List Value) (count count' : Nat) (ts : List Token) :
    (run sym eof st count ts).toOption.map (·.values) =
      (run sym eof st count' ts).toOption.map (·.values) := by
  induction ts generalizing st count count' with
  | nil => rfl
  | cons t ts ih =>
    simp only [run]
    split
    · rfl
    · split
      · exact ih _ _ _
      · rfl

/-- Expressions that fold to the same values can take each other's place. -/
theorem values_of_replaced (he : evaluate sym [] e = .ok vs) (he' : evaluate sym [] e' = .ok vs)
    (before behind : List Token) :
    (run sym eof [] 0 (before ++ (e ++ behind))).toOption.map (·.values) =
      (run sym eof [] 0 (before ++ (e' ++ behind))).toOption.map (·.values) := by
  by_cases hend : HasEnd before
  · -- Nothing behind the `end` is read.
    rw [run_append hend eof, run_append hend eof]
  · rw [run_evaluate hend, run_evaluate hend]
    cases evaluate sym [] before with
    | error f => rfl
    | ok st =>
      have hpush : evaluate sym st e = .ok (vs ++ st) := evaluate_frame he st
      have hpush' : evaluate sym st e' = .ok (vs ++ st) := evaluate_frame he' st
      rw [ok_bind, ok_bind, run_of_evaluate hpush, run_of_evaluate hpush']
      exact values_of_count _ _ _ _

theorem evaluate_of_ofTokens {folded : Folded} {last : Token} {tail : List Token}
    (hend : ¬ HasEnd e) (hlast : last.kind = .keyword .endKw)
    (h : Folded.ofTokens sym eof (e ++ last :: tail) = .ok folded) :
    evaluate sym [] e = .ok folded.values.reverse := by
  rw [Folded.ofTokens, run_evaluate hend] at h
  obtain ⟨st, hst, h⟩ := bind_eq_ok h
  rw [run, if_pos hlast] at h
  cases h
  rw [List.reverse_reverse]
  exact hst

/-! ## A new constant -/

section NewConst

variable {c : Scalar} {st st' : List Value}

theorem constant_addConst (hsym : sym.Coherent) (hc : sym.findConst? c.name = none)
    {text : String} {loc : Location} (h : constant sym text loc st = .ok st') :
    constant (sym.addConst c).2 text loc st = .ok st' := by
  unfold constant at h
  split at h
  · rename_i i d hfind
    have hfind' : (sym.addConst c).2.findStructConst? text = some (i, d) :=
      hfind
    have hbacked := hsym.structConsts d (List.mem_of_getElem? (Named.getElem?_of_last? hfind))
    have hvalues : (sym.addConst c).2.constValues d = sym.constValues d :=
      Symbols.constValues_eq_of_prefix (List.prefix_append sym.consts [c]) hbacked
    rw [constant, hfind']
    simp only [hvalues]
    exact h
  · rename_i hnone
    have hnone' : (sym.addConst c).2.findStructConst? text = none := hnone
    split at h
    · rename_i i d hfind
      have hne : c.name ≠ text := by
        rintro rfl
        rw [hc] at hfind
        cases hfind
      have hfind' : (sym.addConst c).2.findConst? text = some (i, d) :=
        (Named.last?_append_of_ne _ (List.forall_mem_singleton.mpr hne)).trans hfind
      rw [constant, hnone']
      simp only [hfind']
      exact h
    · cases h

/-- A token that folds before a constant is declared has the same effect behind that. -/
theorem token_addConst (hsym : sym.Coherent) (hc : sym.findConst? c.name = none) {t : Token}
    (h : token sym t st = .ok st') :
    token (sym.addConst c).2 t st = .ok st' := by
  obtain ⟨kind, loc⟩ := t
  cases kind with
  | int | bool | ptr => exact h
  | word text =>
    change word sym text loc st = .ok st' at h
    change word (sym.addConst c).2 text loc st = .ok st'
    unfold word at h ⊢
    split at h
    · rename_i effect heffect
      have heffect' : (Intrinsic.ofName? text).bind
          (intrinsic? (sym.addConst c).2 loc) = some effect := heffect
      rw [heffect']
      exact h
    · rename_i hnone
      have hnone' : (Intrinsic.ofName? text).bind
          (intrinsic? (sym.addConst c).2 loc) = none := hnone
      rw [hnone']
      split at h
      · exact h
      · exact constant_addConst hsym hc h
  | keyword | str => cases h

theorem evaluate_addConst (hsym : sym.Coherent) (hc : sym.findConst? c.name = none)
    (h : evaluate sym st e = .ok st') :
    evaluate (sym.addConst c).2 st e = .ok st' := by
  induction e generalizing st with
  | nil => exact h
  | cons t ts ih =>
    obtain ⟨next, hnext, h⟩ := bind_eq_ok h
    rw [evaluate, token_addConst hsym hc hnext, ok_bind]
    exact ih h

/-- A new constant pushes its value, if its name had no meaning. -/
theorem token_newConst {r : Resolution} {loc : Location}
    (hlookup : r.lookup c.name loc = .ok none) (place : Location) :
    token (r.symbols.addConst c).2 ⟨.word c.name, place⟩ st =
      .ok (c.value :: st) := by
  obtain ⟨hintrinsic, hsigil⟩ := Resolution.names_of_undeclared hlookup
  have hnone : (r.symbols.addConst c).2.findStructConst? c.name = none :=
    (Resolution.unused_of_lookup hlookup).structConst
  have hfind : (r.symbols.addConst c).2.findConst? c.name =
      some (r.symbols.consts.length, c) := Named.last?_append_self _ rfl
  simp [token, word, hintrinsic, hsigil, constant, hnone, hfind]

end NewConst

/-! ## Arithmetic -/

theorem token_add (a b : Int64) (ty : Ty) (st : List Value) (place : Location) :
    token sym ⟨.word "+", place⟩ (⟨b, ty⟩ :: ⟨a, ty⟩ :: st) = .ok (⟨a + b, ty⟩ :: st) := by
  have hname : Intrinsic.ofName? "+" = some .add := Intrinsic.ofName?_name .add
  simp [token, word, hname, intrinsic?, binary, Except.map]

theorem token_sub (a b : Int64) (ty : Ty) (st : List Value) (place : Location) :
    token sym ⟨.word "-", place⟩ (⟨b, ty⟩ :: ⟨a, ty⟩ :: st) = .ok (⟨a - b, ty⟩ :: st) := by
  have hname : Intrinsic.ofName? "-" = some .sub := Intrinsic.ofName?_name .sub
  simp [token, word, hname, intrinsic?, binary, Except.map]

theorem token_mul (a b : Int64) (st : List Value) (place : Location) :
    token sym ⟨.word "*", place⟩ (.int b :: .int a :: st) = .ok (.int (a * b) :: st) := by
  have hname : Intrinsic.ofName? "*" = some .mul := Intrinsic.ofName?_name .mul
  simp [token, word, hname, intrinsic?, binary, product, Value.int, Except.map]

end Fold

/-! ## Declared constants -/

/-- A word of 64 bits stands for a number modulo two to the 64, in two's complement. -/
def Wraps (x : Int64) (n : Int) : Prop :=
  x.toInt = n.bmod 18446744073709551616

/-- What leads to the value of a constant: two colons, perhaps behind a scalar type. -/
inductive LeadsConst : List Token → Prop
  | untyped {c c' : Token} (hc : c.isColon) (hc' : c'.isColon) : LeadsConst [c, c']
  | typed {t c c' : Token} {k : Keyword} {ty : Ty} (ht : t.kind = .keyword k)
      (hty : k.scalar? = some ty) (hc : c.isColon) (hc' : c'.isColon) : LeadsConst [t, c, c']

variable {r r' : Resolution} {eof loc : Location} {name : String} {front ts : List Token}
  {used : Nat}

theorem Shape.eq_ofColons {sym : Symbols} {c c' : Token} (hc : c.isColon) (hc' : c'.isColon)
    {shape : Shape} (h : classify sym name loc eof (c :: c' :: ts) = .ok shape) :
    shape = ofColons sym eof ts := by
  cases hcount : (ts.takeWhile Token.isColon).length with
  | zero =>
    simp only [classify, List.takeWhile_cons, hc, hc', if_true, List.length_cons, hcount,
      Nat.zero_add, List.drop_succ_cons, List.drop_zero] at h
    exact (Except.ok.inj h).symm
  | succ n => simp [classify, hc, hc', hcount] at h

namespace Resolution

/-- A step that adds a constant for a word gives it the value of its expression. -/
theorem exists_const_of_step (hsym : r.symbols.Coherent) (hfront : LeadsConst front)
    (hstep : r.step eof ⟨.word name, loc⟩ (front ++ ts) = .ok (r', used))
    (hconst : r.symbols.consts.length < r'.symbols.consts.length) :
    r.lookup name loc = .ok none ∧ ∃ v consumed,
      Folded.ofTokens r.symbols eof ts = .ok ⟨[v], consumed⟩ ∧
      r'.symbols = (r.symbols.addConst ⟨name, v, loc⟩).2 := by
  cases step_move hstep with
  | @declare text shape _ _ ht hlookup _ hshape hproc hdeclare =>
    cases ht
    refine ⟨hlookup, ?_⟩
    cases hfront with
    | untyped hc hc' =>
      obtain rfl := Shape.eq_ofColons hc hc' hshape
      obtain ⟨v, consumed, huntyped⟩ := Shape.exists_untyped hproc
      rw [huntyped, declareShape, declareUntyped_eq] at hdeclare
      cases hdeclare
      refine ⟨v, consumed, Shape.ofTokens_of_ofColons huntyped, ?_⟩
      simp [Entry.addTo, extendConsts, Symbols.addConst]
    | @typed t c c' k ty ht hty hc hc' =>
      have hname : NamesType r.symbols t.kind ty := ht ▸ Keyword.scalar?_eq_some_iff.mp hty
      have hscalar : ty.isStruct = false := by
        cases k <;> cases hty <;> rfl
      have hheads : (Shape.const ty).Heads r.symbols eof (t :: c :: c' :: ts) :=
        .const hname hscalar hc hc'
      cases (hheads.classify_eq hsym name loc).symm.trans hshape
      obtain ⟨⟨_, consumed⟩, v, hfold, rfl, _, rfl, _⟩ := declareConst_eq_ok_iff.mp hdeclare
      refine ⟨v, consumed, hfold, ?_⟩
      simp [Entry.addTo, extendConsts, Symbols.addConst]
  | declareProc _ _ _ _ hdeclare =>
    obtain ⟨_, p, _, _, _, _, _, rfl⟩ := declareProc_eq_ok hdeclare
    exact absurd hconst (Nat.lt_irrefl _)
  | literal | string | word | openIf | openElse | openLet | closeIf | closeElse | closeLet
  | closeProc => exact absurd hconst (Nat.lt_irrefl _)

end Resolution

/-- Constants stand for their expressions. Right behind the declaration of a constant, its name and
its expression can be exchanged in everything that is folded: both ways it folds to the same values,
or to none. For whatever the tables are, an expression that folds to some values pushes these on any
stack and leaves alone what is below; sums, differences and products wrap around at 64 bits. -/
theorem constants_stand_for_expressions {s : TokenStream} {r r' : Resolution} {ts : List Token}
    (hr : Resolution.Reaches s.eof {} s.tokens r ts) {name : String} {loc eof : Location}
    {front init tail : List Token} {last : Token} {used : Nat} (hfront : LeadsConst front)
    (hinit : ¬ HasEnd init) (hlast : last.kind = .keyword .endKw)
    (hstep : r.step eof ⟨.word name, loc⟩ (front ++ (init ++ last :: tail)) = .ok (r', used))
    (hconst : r.symbols.consts.length < r'.symbols.consts.length) :
    (∀ eof' place before behind,
      (Folded.ofTokens r'.symbols eof'
        (before ++ (⟨.word name, place⟩ :: behind))).toOption.map (·.values) =
      (Folded.ofTokens r'.symbols eof' (before ++ (init ++ behind))).toOption.map (·.values)) ∧
    (∀ sym eof' e last tail folded, ¬ HasEnd e → last.kind = .keyword .endKw →
      Folded.ofTokens sym eof' (e ++ last :: tail) = .ok folded →
      ∀ st count rest, Fold.run sym eof' st count (e ++ rest) =
        Fold.run sym eof' (folded.values.reverse ++ st) (count + e.length) rest) ∧
    ∀ sym place st (a b : Int64),
      (∀ ty, ∃ x, Wraps x (a.toInt + b.toInt) ∧ Fold.token sym ⟨.word "+", place⟩
        (⟨b, ty⟩ :: ⟨a, ty⟩ :: st) = .ok (⟨x, ty⟩ :: st)) ∧
      (∀ ty, ∃ x, Wraps x (a.toInt - b.toInt) ∧ Fold.token sym ⟨.word "-", place⟩
        (⟨b, ty⟩ :: ⟨a, ty⟩ :: st) = .ok (⟨x, ty⟩ :: st)) ∧
      ∃ x, Wraps x (a.toInt * b.toInt) ∧ Fold.token sym ⟨.word "*", place⟩
        (.int b :: .int a :: st) = .ok (.int x :: st) := by
  refine ⟨fun eof' place before behind => ?_,
    fun sym eof' e last tail folded hend hlast hfold st count rest => ?_,
    fun sym place st a b => ⟨fun ty => ?_, fun ty => ?_, ?_⟩⟩
  · have hsym := hr.coherent .empty .empty
    obtain ⟨hlookup, v, consumed, hfold, hsymbols⟩ :=
      Resolution.exists_const_of_step hsym hfront hstep hconst
    have hunused := (Resolution.unused_of_lookup hlookup).const
    have hvalue : Fold.evaluate r'.symbols [] init = .ok [v] := by
      rw [hsymbols]
      exact Fold.evaluate_addConst hsym hunused (Fold.evaluate_of_ofTokens hinit hlast hfold)
    have hname : Fold.evaluate r'.symbols [] [⟨.word name, place⟩] = .ok [v] := by
      rw [hsymbols, Fold.evaluate, Fold.token_newConst hlookup place]
      rfl
    exact Fold.values_of_replaced hname hvalue before behind
  · have hpush := Fold.evaluate_frame (Fold.evaluate_of_ofTokens hend hlast hfold) st
    exact Fold.run_of_evaluate hpush count rest
  · exact ⟨a + b, Int64.toInt_add a b, Fold.token_add a b ty st place⟩
  · exact ⟨a - b, Int64.toInt_sub a b, Fold.token_sub a b ty st place⟩
  · exact ⟨a * b, Int64.toInt_mul a b, Fold.token_mul a b st place⟩

def earlierConst : String :=
  "K :: 6 end f :: x int K end end"

def typedFront (loc : Location) : List Token :=
  [.keyword .intKw, .keyword .colon, .keyword .colon].map (⟨·, loc⟩)

def productTokens (loc : Location) : List Token :=
  [.word "K", .int 7, .word "*"].map (⟨·, loc⟩)

theorem constant_stands_for_product :
    ∃ s r ts r' used, TokenStream.ofSource "product" earlierConst = .ok s ∧
      Resolution.Reaches s.eof {} s.tokens r ts ∧ r.current = some 0 ∧
      r.step s.eof ⟨.word "L", s.eof⟩ (typedFront s.eof ++ (productTokens s.eof ++
        ⟨.keyword .endKw, s.eof⟩ :: ts)) = .ok (r', used) ∧
      ∀ before behind,
        (Folded.ofTokens r'.symbols s.eof
          (before ++ (⟨.word "L", s.eof⟩ :: behind))).toOption.map (·.values) =
        (Folded.ofTokens r'.symbols s.eof
          (before ++ (productTokens s.eof ++ behind))).toOption.map (·.values) := by
  obtain ⟨s, r, ts, hs, hr, hcurrent, hlookup, hfresh, hvalue⟩ :=
    Resolution.exists_point (x := TokenStream.ofSource "product" earlierConst)
      (P := fun s r => r.current = some 0 ∧ r.lookup "L" s.eof = .ok none ∧
        r.symbols.findStruct? "L" = none ∧
        Fold.evaluate r.symbols [] (productTokens s.eof) = .ok [.int 42])
      3 (by decide +kernel)
  have hend := Fold.not_hasEnd_of_evaluate hvalue
  have hrow : Declaration r
      (typedFront s.eof ++ (productTokens s.eof ++ [⟨.keyword .endKw, s.eof⟩])) (.const (.int 42)) :=
    .const .int rfl rfl rfl (.closed hend rfl hvalue) rfl
  have hstep := hrow.step_eq (hr.coherent .empty .empty) hlookup hfresh s.eof ts
  have hall := constants_stand_for_expressions hr (.typed rfl rfl rfl rfl) hend rfl hstep
    (by simp [Entry.addTo, Resolution.extendConsts])
  exact ⟨s, r, ts, _, _, hs, hr, hcurrent, hstep, hall.1 s.eof s.eof⟩

end StackEffect
