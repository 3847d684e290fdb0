import StackEffect.Proofs.Additions
import StackEffect.Proofs.Folding
import StackEffect.Proofs.Tokens

/-! # Words for members

A dot in front of a name asks for the member of this name, a dot and a star for its address. Names
of members come from words of the text, so they are not empty; and no struct constant is named like
a member word, since such a word has a meaning. So both words are found for every member, except
that a star at the front of a member's own name makes the first of them ask for an address.
-/

namespace StackEffect

theorem stripSigil?_append (sigil : Char) (text : String) :
    stripSigil? sigil (String.singleton sigil ++ text) = some text := by
  simp [stripSigil?]

theorem memberWord?_load {name : String} (hne : name ≠ "") (hstar : stripSigil? '*' name = none) :
    memberWord? ("." ++ name) = some (.load, name) := by
  have hdot : stripSigil? '.' ("." ++ name) = some name := stripSigil?_append '.' name
  simp [memberWord?, hdot, hstar, hne]

/-- A star at the front asks for an address, also where it belongs to the name of a member. -/
theorem memberWord?_star {text name : String} (hstar : stripSigil? '*' text = some name)
    (hne : name ≠ "") : memberWord? ("." ++ text) = some (.addr, name) := by
  have hdot : stripSigil? '.' ("." ++ text) = some text := stripSigil?_append '.' text
  simp [memberWord?, hdot, hstar, hne]

/-! ## Names of members -/

/-- The words of a text are pieces of it that are not reserved. -/
theorem TokenStream.exists_word {file source : String} {s : TokenStream}
    (hs : ofSource file source = .ok s) {t : Token} (ht : t ∈ s.tokens) {w : String}
    (hw : t.kind = .word w) :
    ∃ after, TokenText after w.toList ∧ w.toList.head? ≠ some '"' ∧ ¬ IsReserved w.toList := by
  obtain ⟨ls, hpartitions⟩ := ofSource_eq_ok_iff.mp hs
  obtain ⟨_, text, after, _, _, hspells, htext, _⟩ := hpartitions.exists_piece t ht
  rw [hw] at hspells
  generalize hkind : TokenKind.word w = kind at hspells
  cases hspells with
  | word hquote hreserved =>
    cases hkind
    rw [String.toList_ofList]
    exact ⟨after, htext, hquote, hreserved⟩
  | keyword | true | false | null | int | str => cases hkind

/-- The words of a text are not empty. -/
theorem TokenStream.word_ne_empty {file source : String} {s : TokenStream}
    (hs : ofSource file source = .ok s) :
    ∀ t ∈ s.tokens, ∀ w, t.kind = .word w → w ≠ "" := by
  rintro t ht w hw rfl
  obtain ⟨after, htext, _⟩ := exists_word hs ht hw
  exact htext.ne_nil rfl

section MemberNames

variable {P : String → Prop}

theorem forall_name_snoc {members : List Member} {name : String}
    (hmembers : ∀ m ∈ members, P m.name) (hname : P name) (ty : Ty) (initial : Value) :
    ∀ m ∈ members ++ [⟨name, ty, initial⟩], P m.name :=
  List.forall_mem_append.mpr ⟨hmembers, List.forall_mem_singleton.mpr hname⟩

/-- The members that are read are named by words. -/
theorem names_of_structMembers {sym : Symbols} {name : String} {loc eof : Location}
    {members found : List Member} {count used : Nat} {ts : List Token}
    (hwords : ∀ t ∈ ts, ∀ w, t.kind = .word w → P w) (hmembers : ∀ m ∈ members, P m.name)
    (h : structMembers sym name loc eof members count ts = .ok (found, used)) :
    ∀ m ∈ found, P m.name := by
  fun_induction structMembers sym name loc eof members count ts with
  | case2 =>
    cases h
    exact hmembers
  | case6 _ _ t _ hm _ _ _ _ _ ih =>
    have hname := hwords t List.mem_cons_self _ hm
    exact ih (by simp) (forall_name_snoc hmembers hname _ _) h
  | case7 _ _ t _ hm _ _ _ _ _ _ _ _ ih =>
    have hname := hwords t List.mem_cons_self _ hm
    refine ih (fun u hu => hwords u ?_) (forall_name_snoc hmembers hname _ _) h
    exact List.mem_cons_of_mem _ (List.mem_cons_of_mem _ hu)
  | case8 _ _ t _ hm _ _ _ _ _ _ _ _ _ _ ih =>
    have hname := hwords t List.mem_cons_self _ hm
    refine ih (fun u hu => hwords u ?_) (forall_name_snoc hmembers hname _ _) h
    exact List.mem_cons_of_mem _ (List.mem_cons_of_mem _ (List.mem_cons_of_mem _ hu))
  | case1 | case3 | case4 | case5 | case9 | case10 => cases h

end MemberNames

namespace Resolution

variable {r r' : Resolution} {eof loc : Location} {t : Token} {ts rest : List Token} {used : Nat}
  {name : String} {P : String → Prop}

theorem addVar_structs (v : Scalar) : (r.addVar v).2.symbols.structs = r.symbols.structs := by
  unfold addVar
  split <;> rfl

theorem addMemory?_structs {size : Nat} (h : r.addMemory? name size loc = some r') :
    r'.symbols.structs = r.symbols.structs := by
  unfold addMemory? at h
  split at h
  · obtain ⟨_, _, rfl⟩ := Option.map_eq_some_iff.mp h
    rfl
  · obtain ⟨found, hfound, rfl⟩ := Option.map_eq_some_iff.mp h
    obtain ⟨_, _, rfl⟩ := Option.map_eq_some_iff.mp hfound
    rfl

/-- Only the declaration of a struct adds one. -/
theorem declareShape_structs {shape : Shape} (hshape : shape ≠ .struct)
    (hr : r.declareShape eof name loc rest shape = .ok (r', used)) :
    r'.symbols.structs = r.symbols.structs := by
  cases shape with
  | struct => exact absurd rfl hshape
  | var ty =>
    obtain ⟨_, value, _, _, rfl, _⟩ := declareVar_eq_ok hr
    exact addVar_structs _
  | const ty =>
    obtain ⟨_, value, _, _, _, rfl, _⟩ := declareConst_eq_ok hr
    rfl
  | structVar id d =>
    cases hproc : r.procedure? with
    | none =>
      obtain ⟨_, _, rfl⟩ := declareStructVar_eq_globals hproc hr
      rfl
    | some found =>
      obtain ⟨_, _, rfl⟩ := declareStructVar_eq_locals hproc hr
      rfl
  | structConst id d =>
    obtain ⟨_, _, rfl⟩ := declareStructConst_eq hr
    rfl
  | memory =>
    obtain ⟨size, hmemory⟩ := addMemory?_of_declareMemory hr
    exact addMemory?_structs hmemory
  | untyped value consumed =>
    cases hr
    rfl
  | proc =>
    obtain ⟨_, p, _, _, _, _, _, rfl⟩ := declareProc_eq_ok hr
    rfl

theorem Move.memberNames (h : Move eof r t rest r' used)
    (hwords : ∀ t ∈ rest, ∀ w, t.kind = .word w → P w)
    (hr : ∀ d ∈ r.symbols.structs, ∀ m ∈ d.members, P m.name) :
    ∀ d ∈ r'.symbols.structs, ∀ m ∈ d.members, P m.name := by
  cases h with
  | @declare text shape _ _ _ _ _ _ _ hdeclare =>
    by_cases hshape : shape = .struct
    · subst hshape
      obtain ⟨_, members, hmembers, _, rfl⟩ := declareStruct_eq hdeclare
      refine List.forall_mem_append.mpr ⟨hr, List.forall_mem_singleton.mpr ?_⟩
      refine names_of_structMembers (fun u hu => hwords u ?_) (by simp) hmembers
      exact List.mem_of_mem_drop hu
    · rw [declareShape_structs hshape hdeclare]
      exact hr
  | declareProc _ _ _ _ hdeclare =>
    obtain ⟨_, p, _, _, _, _, _, rfl⟩ := declareProc_eq_ok hdeclare
    exact hr
  | literal | string | word | openIf | openElse | openLet | closeIf | closeElse | closeLet
  | closeProc => exact hr

/-- Every struct has got its members from the words of the text. -/
theorem Reaches.memberNames (h : Reaches eof {} ts r rest)
    (hwords : ∀ t ∈ ts, ∀ w, t.kind = .word w → P w) :
    ∀ d ∈ r.symbols.structs, ∀ m ∈ d.members, P m.name := by
  induction h with
  | start => simp
  | step h hstep ih =>
    refine (step_move hstep).memberNames (fun u hu => hwords u ?_) ih
    exact h.suffix.subset (List.mem_cons_of_mem _ hu)

/-- No struct constant is named like a member word. -/
theorem Reaches.structConst_not_member (h : Reaches eof {} ts r rest) :
    ∀ c ∈ r.symbols.structConsts, memberWord? c.name = none := by
  induction h with
  | start => simp
  | step h hstep ih =>
    intro c hc
    rcases (step_move hstep).structConsts c hc with hc | hlookup
    · exact ih c hc
    · obtain ⟨⟨_, hmember, _⟩, _⟩ := lookup_eq_none hlookup
      exact Option.map_eq_none_iff.mp hmember

/-- A member word is found whatever else has been declared. -/
theorem Reaches.lookup_member (h : Reaches eof {} ts r rest) {word : String}
    {access : MemberAccess} (hword : memberWord? word = some (access, name)) (loc : Location) :
    r.lookup word loc = .ok (some { ops := [.member access name none] }) := by
  have hconst : r.structConst? word = none := by
    rw [structConst?, Option.map_eq_none_iff]
    apply Named.last?_eq_none.mpr
    intro c hc hname
    have hnone := h.structConst_not_member c hc
    rw [show c.name = word from hname, hword] at hnone
    cases hnone
  simp [lookup, hconst, memberAccess?, hword]

end Resolution

end StackEffect
