import StackEffect.Proofs.Growth

/-! # How far resolution looks ahead

Declarations are recognized by looking ahead: at the colons behind a word, at a constant expression
that may follow, and at the types of a signature. None of these looks past an `end`. A block that is
open is closed by an `end` that is still to be read, so no step of a resolution that succeeds
depends on what stands behind its tokens.
-/

namespace StackEffect

def HasEnd (ts : List Token) : Prop :=
  ∃ t ∈ ts, t.kind = .keyword .endKw

namespace HasEnd

variable {t : Token} {ts : List Token}

theorem tail (h : HasEnd (t :: ts)) (ht : t.kind ≠ .keyword .endKw) : HasEnd ts := by
  obtain ⟨u, hu, hk⟩ := h
  rcases List.mem_cons.mp hu with rfl | hu
  · exact absurd hk ht
  · exact ⟨u, hu, hk⟩

theorem cons (h : HasEnd ts) (t : Token) : HasEnd (t :: ts) := by
  obtain ⟨u, hu, hk⟩ := h
  exact ⟨u, List.mem_cons_of_mem t hu, hk⟩

theorem of_suffix {us : List Token} (h : HasEnd us) (hsuffix : us <:+ ts) : HasEnd ts := by
  obtain ⟨u, hu, hk⟩ := h
  exact ⟨u, hsuffix.subset hu, hk⟩

theorem ne_nil (h : HasEnd ts) : ts ≠ [] := by
  rintro rfl
  obtain ⟨u, hu, _⟩ := h
  cases hu

end HasEnd

theorem Token.ne_end_of_isColon {t : Token} (h : t.isColon) : t.kind ≠ .keyword .endKw := by
  intro hend
  rw [Token.isColon, hend] at h
  cases h

theorem HasEnd.drop_colons {ts : List Token} (h : HasEnd ts) {n : Nat}
    (hn : n ≤ (ts.takeWhile Token.isColon).length) : HasEnd (ts.drop n) := by
  induction ts generalizing n with
  | nil => exact absurd rfl h.ne_nil
  | cons t ts ih =>
    cases n with
    | zero => exact h
    | succ n =>
      cases ht : t.isColon with
      | false => simp [ht] at hn
      | true =>
        simp only [List.takeWhile_cons, ht, if_true, List.length_cons] at hn
        exact ih (h.tail (Token.ne_end_of_isColon ht)) (Nat.le_of_succ_le_succ hn)

theorem HasEnd.takeWhile_append {ts : List Token} (h : HasEnd ts) (more : List Token) :
    (ts ++ more).takeWhile Token.isColon = ts.takeWhile Token.isColon := by
  induction ts with
  | nil => exact absurd rfl h.ne_nil
  | cons t ts ih =>
    cases ht : t.isColon with
    | false => simp [ht]
    | true => simp [ht, ih (h.tail (Token.ne_end_of_isColon ht))]

variable {sym : Symbols} {name : String} {loc eof : Location} {ts rest : List Token}

namespace Fold

theorem run_append (h : HasEnd ts) (eof eof' : Location) (st : List Value) (count : Nat)
    (more : List Token) : run sym eof' st count (ts ++ more) = run sym eof st count ts := by
  induction ts generalizing st count with
  | nil => exact absurd rfl h.ne_nil
  | cons t ts ih =>
    simp only [List.cons_append, run]
    split
    · rfl
    · rename_i ht
      split
      · exact ih (h.tail ht) _ _
      · rfl

theorem hasEnd_of_run {st : List Value} {count : Nat} {folded : Folded}
    (h : run sym eof st count ts = .ok folded) :
    HasEnd ts ∧ folded.consumed ≤ count + ts.length := by
  induction ts generalizing st count with
  | nil => cases h
  | cons t ts ih =>
    simp only [run] at h
    split at h
    · rename_i ht
      cases h
      exact ⟨⟨t, List.mem_cons_self, ht⟩, by simp⟩
    · split at h
      · obtain ⟨hend, hconsumed⟩ := ih h
        refine ⟨hend.cons t, ?_⟩
        rw [List.length_cons]
        omega
      · cases h

end Fold

/-- The tokens of a struct end with its `end`. -/
theorem structMembers_append {members found : List Member} {count used : Nat}
    (h : structMembers sym name loc eof members count ts = .ok (found, used)) (eof' : Location)
    (more : List Token) :
    structMembers sym name loc eof' members count (ts ++ more) = .ok (found, used) ∧ HasEnd ts ∧
      used ≤ count + ts.length := by
  fun_induction structMembers sym name loc eof members count ts with
  | case1 | case3 | case4 | case5 | case9 | case10 => cases h
  | case2 members count t ts ht =>
    cases h
    refine ⟨?_, ⟨t, List.mem_cons_self, ht⟩, by simp⟩
    rw [List.cons_append, structMembers, ht]
  | case6 => cases h
  | case7 members count t m ht hnew u ty hty plain d ds hd ih =>
    obtain ⟨hsame, hend, hused⟩ := ih h
    refine ⟨?_, (hend.cons u).cons t, by simp only [List.length_cons] at hused ⊢; omega⟩
    rw [← hsame, List.cons_append, List.cons_append, List.cons_append, structMembers]
    simp [ht, hnew, hty, hd, plain]
  | case8 members count t m ht hnew u ty hty d ds v hd given hdefault ih =>
    obtain ⟨hsame, hend, hused⟩ := ih h
    refine ⟨?_, ((hend.cons d).cons u).cons t, by simp only [List.length_cons]; omega⟩
    rw [← hsame, List.cons_append, List.cons_append, List.cons_append, structMembers]
    simp [ht, hnew, hty, hd, given, hdefault]

/-- The names of a `let` end with its colon. -/
theorem letNames_append {names found : List String} (h : letNames loc eof names ts = .ok found)
    (eof' : Location) (more : List Token) :
    letNames loc eof' names (ts ++ more) = .ok found ∧
      found.length + 1 ≤ names.length + ts.length := by
  induction ts generalizing names with
  | nil => cases h
  | cons t ts ih =>
    simp only [List.cons_append, letNames] at h ⊢
    split at h
    · cases h
      exact ⟨rfl, by rw [List.length_cons]; omega⟩
    · obtain ⟨hsame, hlen⟩ := ih h
      refine ⟨hsame, ?_⟩
      simp only [List.length_append, List.length_cons, List.length_nil] at hlen ⊢
      omega
    · cases h

theorem Token.ne_end_of_type? {t : Token} {ty : Ty} (h : t.type? sym = some ty) :
    t.kind ≠ .keyword .endKw := by
  intro hend
  simp [Token.type?, hend, Keyword.scalar?] at h

/-- The types of a signature stand before the next `end`. -/
theorem signatureTypes_append (sym : Symbols) (h : HasEnd ts) (more : List Token) :
    signatureTypes sym (ts ++ more) = signatureTypes sym ts ∧
      HasEnd (ts.drop (signatureTypes sym ts).length) := by
  induction ts with
  | nil => exact absurd rfl h.ne_nil
  | cons t ts ih =>
    cases hty : t.type? sym with
    | none => simpa [signatureTypes, hty] using h
    | some ty => simpa [signatureTypes, hty] using ih (h.tail (Token.ne_end_of_type? hty))

theorem Resolution.procOuts_append (sym : Symbols) (h : HasEnd ts) (more : List Token) :
    procOuts sym (ts ++ more) = procOuts sym ts ∧ (procOuts sym ts).2 ≤ ts.length := by
  cases ts with
  | nil => exact absurd rfl h.ne_nil
  | cons t ts =>
    obtain ⟨kind, loc⟩ := t
    cases kind with
    | keyword k =>
      cases k with
      | arrow =>
        obtain ⟨hsame, hend⟩ := signatureTypes_append sym (h.tail (by simp)) more
        have hlt := List.length_pos_iff.mpr hend.ne_nil
        rw [List.length_drop] at hlt
        simp only [List.cons_append, procOuts, hsame, List.length_cons, true_and]
        omega
      | ifKw | elseKw | endKw | letKw | structKw | intKw | boolKw | ptrKw | colon =>
        exact ⟨rfl, Nat.zero_le _⟩
    | word | int | bool | ptr | str => exact ⟨rfl, Nat.zero_le _⟩

namespace Shape

theorem startsConst_append (h : HasEnd ts) (more : List Token) :
    startsConst (ts ++ more) = startsConst ts := by
  match ts, h with
  | [], h => exact absurd rfl h.ne_nil
  | [t], h =>
    have ht : t.isColon = false := by
      cases ht : t.isColon with
      | false => rfl
      | true => exact absurd rfl (h.tail (Token.ne_end_of_isColon ht)).ne_nil
    cases more <;> simp [startsConst, ht]
  | t :: u :: ts, _ => rfl

theorem ofPlain_append (h : HasEnd rest) (more : List Token) :
    ofPlain name loc (rest ++ more) = ofPlain name loc rest := by
  cases rest with
  | nil => exact absurd rfl h.ne_nil
  | cons t tail =>
    obtain ⟨kind, tloc⟩ := t
    cases kind with
    | keyword k =>
      cases k with
      | intKw | boolKw | ptrKw =>
        simp [ofPlain, Keyword.scalar?, startsConst_append (h.tail (by simp)) more]
      | structKw | ifKw | elseKw | endKw | letKw | arrow | colon => rfl
    | word | int | bool | ptr | str => rfl

theorem ofColon_append (h : HasEnd rest) (eof eof' : Location) (more : List Token) :
    ofColon sym name eof' (rest ++ more) = ofColon sym name eof rest := by
  cases rest with
  | nil => exact absurd rfl h.ne_nil
  | cons t tail =>
    cases hk : t.kind with
    | word w => simp [ofColon, hk, startsConst_append (h.tail (by simp [hk])) more]
    | keyword | int | bool | ptr | str => simp [ofColon, hk]

/-- What a word declares is known from the tokens up to the next `end`. -/
theorem classify_append (h : HasEnd rest) (eof eof' : Location) (more : List Token) :
    classify sym name loc eof' (rest ++ more) = classify sym name loc eof rest := by
  have hlen : (rest.takeWhile Token.isColon).length ≤ rest.length :=
    (List.takeWhile_prefix _).length_le
  have hdrop {n : Nat} (hn : (rest.takeWhile Token.isColon).length = n) :
      (rest ++ more).drop n = rest.drop n ++ more ∧ HasEnd (rest.drop n) :=
    ⟨List.drop_append_of_le_length (hn ▸ hlen), h.drop_colons (Nat.le_of_eq hn.symm)⟩
  unfold classify
  rw [h.takeWhile_append more]
  split
  · exact ofPlain_append h more
  · rename_i hcount
    obtain ⟨hsame, hend⟩ := hdrop hcount
    rw [hsame]
    exact ofColon_append hend eof eof' more
  · rename_i hcount
    obtain ⟨hsame, hend⟩ := hdrop hcount
    simp only [hsame, ofColons, Folded.ofTokens, Fold.run_append hend eof eof']
  · rename_i hzero hone htwo
    have hlt : 2 < (rest.takeWhile Token.isColon).length :=
      Nat.lt_of_le_of_ne (Nat.lt_of_le_of_ne (Nat.pos_of_ne_zero hzero) (Ne.symm hone))
        (Ne.symm htwo)
    rw [List.getElem?_append_left (Nat.lt_of_lt_of_le hlt hlen)]

/-- Whether a shape is one of those behind two colons. -/
def isBehindColons : Shape → Bool
  | untyped _ _ | proc => true
  | struct | var _ | const _ | structVar _ _ | structConst _ _ | memory => false

theorem eq_ofColons_of_classify {shape : Shape} (h : classify sym name loc eof rest = .ok shape)
    (hshape : shape.isBehindColons) :
    (rest.takeWhile Token.isColon).length = 2 ∧ shape = ofColons sym eof (rest.drop 2) := by
  unfold classify at h
  split at h
  · unfold ofPlain at h
    split at h
    · cases h
      cases hshape
    · split at h
      · cases h
        split at hshape <;> cases hshape
      · cases h
    · cases h
  · unfold ofColon at h
    split at h
    · cases h
    · split at h
      · split at h
        · cases h
          split at hshape <;> cases hshape
        · split at h
          · cases h
            cases hshape
          · cases h
      · cases h
        cases hshape
      · cases h
  · rename_i hcount
    exact ⟨hcount, (Except.ok.inj h).symm⟩
  · cases h

theorem ofTokens_of_ofColons {value : Value} {consumed : Nat}
    (h : ofColons sym eof ts = .untyped value consumed) :
    Folded.ofTokens sym eof ts = .ok ⟨[value], consumed⟩ := by
  unfold ofColons at h
  split at h
  · rename_i hfolded
    cases h
    exact hfolded
  · cases h

end Shape

namespace Resolution

variable {r r' : Resolution} {used : Nat}

theorem fold_append {skip : Nat} {folded : Folded} (h : r.fold eof rest skip = .ok folded)
    (eof' : Location) (more : List Token) :
    r.fold eof' (rest ++ more) skip = .ok folded ∧ HasEnd rest ∧
      skip + folded.consumed ≤ rest.length := by
  obtain ⟨hend, hconsumed⟩ := Fold.hasEnd_of_run h
  have hlt := List.length_pos_iff.mpr hend.ne_nil
  rw [List.length_drop] at hlt hconsumed
  refine ⟨?_, hend.of_suffix (List.drop_suffix _ _), by omega⟩
  rw [← h]
  simp only [fold, Folded.ofTokens]
  rw [List.drop_append_of_le_length (by omega)]
  exact Fold.run_append hend eof eof' _ _ more

/-- What goes on from an initializer that is folded uses the tokens of the initializer. -/
theorem bind_fold_append {skip : Nat} {next : Folded → Except Fault (Resolution × Nat)}
    (h : r.fold eof rest skip >>= next = .ok (r', used))
    (hused : ∀ folded, next folded = .ok (r', used) → used = skip + folded.consumed)
    (eof' : Location) (more : List Token) :
    r.fold eof' (rest ++ more) skip >>= next = .ok (r', used) ∧ HasEnd rest ∧
      used ≤ rest.length := by
  obtain ⟨folded, hfold, hnext⟩ := bind_eq_ok h
  obtain ⟨hsame, hend, hle⟩ := fold_append hfold eof' more
  rw [hsame, ok_bind]
  exact ⟨hnext, hend, hused folded hnext ▸ hle⟩

theorem declareStruct_append (hr : r.declareStruct eof name loc rest = .ok (r', used))
    (eof' : Location) (more : List Token) :
    r.declareStruct eof' name loc (rest ++ more) = .ok (r', used) ∧ HasEnd rest ∧
      used ≤ rest.length := by
  unfold declareStruct at hr ⊢
  split at hr
  · cases hr
  · obtain ⟨⟨members, count⟩, hmembers, hr⟩ := bind_eq_ok hr
    obtain ⟨hsame, hend, hcount⟩ := structMembers_append hmembers eof' more
    have hlt := List.length_pos_iff.mpr hend.ne_nil
    rw [List.length_drop] at hlt hcount
    rw [List.drop_append_of_le_length (by omega), hsame, ok_bind]
    refine ⟨hr, hend.of_suffix (List.drop_suffix _ _), ?_⟩
    simp only at hr
    split at hr
    · cases hr
    · cases hr
      omega

/-- A declaration is read from the tokens up to the next `end`. -/
theorem declareShape_append {shape : Shape}
    (hshape : Shape.classify r.symbols name loc eof rest = .ok shape) (hproc : shape ≠ .proc)
    (hr : r.declareShape eof name loc rest shape = .ok (r', used)) (eof' : Location)
    (more : List Token) :
    r.declareShape eof' name loc (rest ++ more) shape = .ok (r', used) ∧ HasEnd rest ∧
      used ≤ rest.length := by
  cases shape with
  | proc => exact absurd rfl hproc
  | struct => exact declareStruct_append hr eof' more
  | var ty =>
    refine bind_fold_append hr (fun folded h => ?_) eof' more
    obtain ⟨value, _, h⟩ := bind_eq_ok h
    cases h
    rfl
  | const ty =>
    refine bind_fold_append hr (fun folded h => ?_) eof' more
    obtain ⟨single, _, h⟩ := bind_eq_ok h
    obtain ⟨value, _, h⟩ := bind_eq_ok h
    cases h
    rfl
  | structVar id d | structConst id d =>
    refine bind_fold_append hr (fun folded h => ?_) eof' more
    obtain ⟨values, _, h⟩ := bind_eq_ok h
    cases h
    rfl
  | memory =>
    refine bind_fold_append hr (fun folded h => ?_) eof' more
    obtain ⟨single, _, h⟩ := bind_eq_ok h
    obtain ⟨value, _, h⟩ := bind_eq_ok h
    simp only at h
    split at h
    · split at h
      · cases h
        rfl
      · cases h
    · cases h
  | untyped value consumed =>
    obtain ⟨_, hcolons⟩ := Shape.eq_ofColons_of_classify hshape rfl
    have hfold : r.fold eof rest 2 = .ok ⟨[value], consumed⟩ :=
      Shape.ofTokens_of_ofColons hcolons.symm
    obtain ⟨_, hend, hle⟩ := fold_append hfold eof' more
    cases hr
    exact ⟨rfl, hend, hle⟩

theorem declareProc_append (hend : HasEnd (rest.drop 2))
    (hr : r.declareProc name loc rest = .ok (r', used)) (more : List Token) :
    r.declareProc name loc (rest ++ more) = .ok (r', used) ∧ used ≤ rest.length := by
  obtain ⟨hins, hend'⟩ := signatureTypes_append r.symbols hend more
  rw [List.drop_drop] at hend'
  obtain ⟨houts, hcount⟩ := procOuts_append r.symbols hend' more
  have hlt := List.length_pos_iff.mpr hend'.ne_nil
  rw [List.length_drop] at hlt hcount
  have hdrop {n : Nat} (hn : n ≤ 2 + (signatureTypes r.symbols (rest.drop 2)).length) :
      (rest ++ more).drop n = rest.drop n ++ more := List.drop_append_of_le_length (by omega)
  unfold declareProc at hr ⊢
  split at hr
  · cases hr
  · simp only [hdrop (Nat.le_add_right _ _), hins, hdrop (Nat.le_refl _), houts] at hr ⊢
    cases hr
    exact ⟨rfl, by omega⟩

/-- A move that leaves no block open whose `end` is missing is the same with more tokens behind. -/
theorem Move.append {t : Token} (h : Move eof r t rest r' used)
    (hend : r'.code.blocks ≠ [] → HasEnd rest) (eof' : Location) (more : List Token) :
    Move eof' r t (rest ++ more) r' used ∧ used ≤ rest.length := by
  cases h with
  | literal ht hp => exact ⟨.literal ht hp, Nat.zero_le _⟩
  | string ht hp => exact ⟨.string ht hp, Nat.zero_le _⟩
  | word ht hm hc => exact ⟨.word ht hm hc, Nat.zero_le _⟩
  | openIf ht hp => exact ⟨.openIf ht hp, Nat.zero_le _⟩
  | openElse ht hb hk => exact ⟨.openElse ht hb hk, Nat.zero_le _⟩
  | openLet ht hp hnames hne =>
    obtain ⟨hsame, hlen⟩ := letNames_append hnames eof' more
    exact ⟨.openLet ht hp hsame hne, by simpa using hlen⟩
  | closeIf ht hb hk => exact ⟨.closeIf ht hb hk, Nat.zero_le _⟩
  | closeElse ht hb hk => exact ⟨.closeElse ht hb hk, Nat.zero_le _⟩
  | closeLet ht hb hk hp hcount => exact ⟨.closeLet ht hb hk hp hcount, Nat.zero_le _⟩
  | closeProc ht hb hk => exact ⟨.closeProc ht hb hk, Nat.zero_le _⟩
  | declare ht hm hs hshape hproc hr =>
    obtain ⟨hsame, hrest, hused⟩ := declareShape_append hshape hproc hr eof' more
    rw [← Shape.classify_append hrest eof eof' more] at hshape
    exact ⟨.declare ht hm hs hshape hproc hsame, hused⟩
  | declareProc ht hm hs hshape hr =>
    have hrest : HasEnd rest := by
      apply hend
      obtain ⟨_, p, _, _, _, _, _, rfl⟩ := declareProc_eq_ok hr
      simp [Code.openBlock]
    have hcolons := (Shape.eq_ofColons_of_classify hshape rfl).1
    obtain ⟨hsame, hused⟩ :=
      declareProc_append (hrest.drop_colons (Nat.le_of_eq hcolons.symm)) hr more
    rw [← Shape.classify_append hrest eof eof' more] at hshape
    exact ⟨.declareProc ht hm hs hshape hsame, hused⟩

/-- Only an `end` closes the last block that is open. -/
theorem Move.blocks_ne_nil {t : Token} (h : Move eof r t rest r' used)
    (hb : r.code.blocks ≠ []) : t.kind = .keyword .endKw ∨ r'.code.blocks ≠ [] := by
  cases h with
  | literal | string | word => exact .inr hb
  | openIf | openElse | openLet => exact .inr (List.cons_ne_nil _ _)
  | closeIf ht | closeElse ht | closeLet ht | closeProc ht => exact .inl ht
  | declare ht hm hs hshape hproc hr =>
    rw [(declareShape_adds hproc hr).code]
    exact .inr hb
  | declareProc ht hm hs hshape hr =>
    obtain ⟨_, p, _, _, _, _, _, rfl⟩ := declareProc_eq_ok hr
    exact .inr (List.cons_ne_nil _ _)

theorem Reaches.hasEnd_or_blocks_ne_nil {start : Resolution} (h : Reaches eof start ts r rest)
    (hb : start.code.blocks ≠ []) : HasEnd ts ∨ r.code.blocks ≠ [] := by
  induction h with
  | start => exact .inr hb
  | @step r r' t rest used h hstep ih =>
    rcases ih with hend | hne
    · exact .inl hend
    · rcases (step_move hstep).blocks_ne_nil hne with ht | hne
      · exact .inl ⟨t, h.suffix.subset List.mem_cons_self, ht⟩
      · exact .inr hne

/-- Where a resolution leaves no block open, what stands behind its tokens changes none of its
points. -/
theorem Reaches.append {start last : Resolution} (h : Reaches eof start ts r rest)
    (hlast : Reaches eof start ts last []) (hblocks : last.code.blocks = []) (eof' : Location)
    (more : List Token) : Reaches eof' start (ts ++ more) r (rest ++ more) := by
  induction h with
  | start => exact .start
  | @step r r' t rest used h hstep ih =>
    have hend : r'.code.blocks ≠ [] → HasEnd rest := by
      intro hne
      rcases ((Reaches.step h hstep).to_last hlast).hasEnd_or_blocks_ne_nil hne with hend | hopen
      · exact hend.of_suffix (List.drop_suffix _ _)
      · exact absurd hblocks hopen
    obtain ⟨hmove, hused⟩ := (step_move hstep).append hend eof' more
    rw [List.cons_append] at ih
    have hnext := Reaches.step ih hmove.step_eq
    rwa [List.drop_append_of_le_length hused] at hnext

end Resolution

end StackEffect
