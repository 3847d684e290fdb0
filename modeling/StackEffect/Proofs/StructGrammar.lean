import StackEffect.Proofs.VariableWords

/-! # The grammar of struct definitions

A struct definition is a list of members in front of an `end`. A member is a name and a type, with
or without a literal for its default. Whether a literal follows is seen from the next token alone,
since neither a member nor `end` starts with one. So exactly the definitions that follow the grammar
are read, and the members get what the grammar gives them.
-/

namespace StackEffect

/-! ## Types and literals -/

/-- The type that a token names: a scalar type, or a struct that has been declared. -/
inductive NamesType (sym : Symbols) : TokenKind → Ty → Prop
  | int : NamesType sym (.keyword .intKw) .int
  | bool : NamesType sym (.keyword .boolKw) .bool
  | ptr : NamesType sym (.keyword .ptrKw) .ptr
  | struct {id : Nat} {d : StructDef} (hd : sym.structs[id]? = some d) :
    NamesType sym (.word d.name) (.struct id)

/-- A literal, and the default that it gives to a member. An address can stand for a struct. -/
inductive GivesDefault : TokenKind → Value → Prop
  | int (n : Int64) : GivesDefault (.int n) ⟨n, .int⟩
  | bool (b : Bool) : GivesDefault (.bool b) ⟨if b then 1 else 0, .bool⟩
  | ptr (n : Int64) : GivesDefault (.ptr n) ⟨n, .ptr⟩
  | struct (n : Int64) (id : Nat) : GivesDefault (.ptr n) ⟨n, .struct id⟩

variable {sym : Symbols}

theorem Keyword.scalar?_eq_some_iff {k : Keyword} {ty : Ty} :
    k.scalar? = some ty ↔ NamesType sym (.keyword k) ty := by
  constructor
  · intro h
    cases k with
    | intKw | boolKw | ptrKw =>
      cases h
      constructor
    | _ => cases h
  · intro h
    cases h <;> rfl

theorem Token.type?_eq_some_iff (hsym : sym.Coherent) {t : Token} {ty : Ty} :
    t.type? sym = some ty ↔ NamesType sym t.kind ty := by
  obtain ⟨kind, loc⟩ := t
  cases kind with
  | keyword k => exact Keyword.scalar?_eq_some_iff
  | word w =>
    constructor
    · intro h
      obtain ⟨⟨id, d⟩, hfind, rfl⟩ := Option.map_eq_some_iff.mp h
      obtain ⟨hd, rfl⟩ := hsym.findStruct?_eq_some_iff.mp hfind
      exact .struct hd
    · rintro (_ | _ | _ | @⟨id, d, hd⟩)
      have hfind : sym.findStruct? d.name = some (id, d) :=
        hsym.findStruct?_eq_some_iff.mpr ⟨hd, rfl⟩
      simp [type?, hfind]
  | int | bool | ptr | str =>
    constructor
    · intro h
      cases h
    · intro h
      cases h

/-- A literal may be the default of a member if it gives one of the member's type. -/
theorem isDefaultOf_iff {kind : TokenKind} {v : Value} (hkind : kind.literal? = some v) {ty : Ty} :
    v.isDefaultOf ty ↔ GivesDefault kind ⟨v.bits, ty⟩ := by
  have hpointer : v.isDefaultOf ty ↔ v.ty = ty ∨ v.ty = .ptr ∧ ty.isStruct := by
    simp [Value.isDefaultOf]
  rw [hpointer]
  cases kind with
  | int n | bool b =>
    cases hkind
    constructor
    · rintro (rfl | ⟨hptr, _⟩)
      · constructor
      · cases hptr
    · rintro (_ | _)
      exact .inl rfl
  | ptr n =>
    cases hkind
    constructor
    · rintro (rfl | ⟨_, hstruct⟩)
      · exact .ptr n
      · cases ty with
        | struct id => exact .struct n id
        | int | bool | ptr | any => cases hstruct
    · rintro (_ | _)
      · exact .inl rfl
      · exact .inr ⟨rfl, rfl⟩
  | keyword | word | str => cases hkind

theorem GivesDefault.exists_literal {kind : TokenKind} {v : Value} (h : GivesDefault kind v) :
    ∃ w, kind.literal? = some w ∧ w.bits = v.bits := by
  cases h with
  | int n | bool b | ptr n | struct n id => exact ⟨_, rfl, rfl⟩

/-! ## Members -/

/-- The tokens that define a member: a word for its name, a type, and perhaps a literal for its
default, which is zero otherwise. -/
inductive MemberItem (sym : Symbols) : Member → List Token → Prop
  | plain {name : String} {ty : Ty} {t u : Token} (ht : t.kind = .word name)
      (hu : NamesType sym u.kind ty) : MemberItem sym ⟨name, ty, ⟨0, ty⟩⟩ [t, u]
  | given {name : String} {ty : Ty} {initial : Value} {t u d : Token} (ht : t.kind = .word name)
      (hu : NamesType sym u.kind ty) (hd : GivesDefault d.kind initial) (hty : initial.ty = ty) :
      MemberItem sym ⟨name, ty, initial⟩ [t, u, d]

variable {name : String} {loc eof : Location} {members found : List Member} {count used : Nat}
  {m : Member} {item rest ts : List Token}

/-- A member is read and the reading goes on behind it, where no literal stands. -/
theorem structMembers_item (hsym : sym.Coherent) (hitem : MemberItem sym m item)
    (hnew : ∀ m' ∈ members, m'.name ≠ m.name) {next : Token} (hnext : next.kind.literal? = none) :
    structMembers sym name loc eof members count (item ++ next :: rest) =
      structMembers sym name loc eof (members ++ [m]) (count + item.length) (next :: rest) := by
  have hfirst : Named.first? m.name members = none := Named.first?_eq_none.mpr hnew
  cases hitem with
  | plain ht hu =>
    have hty := (Token.type?_eq_some_iff hsym).mpr hu
    simp only [List.cons_append, List.nil_append]
    rw [structMembers]
    simp [ht, hfirst, hty, hnext, Value.zero]
  | @given _ _ initial t u d ht hu hd hty =>
    subst hty
    have htype := (Token.type?_eq_some_iff hsym).mpr hu
    obtain ⟨v, hv, hbits⟩ := hd.exists_literal
    have hinitial : (⟨v.bits, initial.ty⟩ : Value) = initial := by rw [hbits]
    have hdefault : v.isDefaultOf initial.ty := (isDefaultOf_iff hv).mpr (hinitial ▸ hd)
    simp only [List.cons_append, List.nil_append]
    rw [structMembers]
    simp [ht, hfirst, htype, hv, hdefault, hinitial]

/-- The tokens of a list of members, with the `end` behind them. -/
inductive MemberList (sym : Symbols) : List Member → List Token → Prop
  | nil {last : Token} (hlast : last.kind = .keyword .endKw) : MemberList sym [] [last]
  | cons {m : Member} {ms : List Member} {item body : List Token} (hitem : MemberItem sym m item)
      (hbody : MemberList sym ms body) : MemberList sym (m :: ms) (item ++ body)

/-- Neither a member nor the `end` starts with a literal. -/
theorem MemberList.exists_next {ms : List Member} {body : List Token}
    (h : MemberList sym ms body) :
    ∃ next more, body = next :: more ∧ next.kind.literal? = none := by
  cases h with
  | nil hlast => exact ⟨_, [], rfl, by rw [hlast]; rfl⟩
  | cons hitem hbody =>
    cases hitem with
    | plain ht hu => exact ⟨_, _, rfl, by rw [ht]; rfl⟩
    | given ht hu hd hty => exact ⟨_, _, rfl, by rw [ht]; rfl⟩

/-- Members that follow the grammar and have different names are read. -/
theorem MemberList.structMembers_eq (hsym : sym.Coherent) {ms : List Member} {body : List Token}
    (h : MemberList sym ms body) (members : List Member)
    (hnames : ((members ++ ms).map (·.name)).Nodup) (tail : List Token) :
    structMembers sym name loc eof members count (body ++ tail) =
      .ok (members ++ ms, count + body.length) := by
  induction h generalizing members count with
  | nil hlast => simp [structMembers, hlast]
  | @cons m ms item body hitem hbody ih =>
    -- What follows starts another member or is the `end`, so it is not taken for a default.
    obtain ⟨next, more, rfl, hnext⟩ := hbody.exists_next
    have hnew : ∀ m' ∈ members, m'.name ≠ m.name := by
      rw [List.map_append, List.nodup_append] at hnames
      intro m' hm'
      exact hnames.2.2 _ (List.mem_map_of_mem hm') _ (by simp)
    rw [List.append_assoc, List.cons_append, structMembers_item hsym hitem hnew hnext]
    rw [List.append_cons] at hnames
    exact (ih _ hnames).trans (by simp [Nat.add_assoc])

/-- Members that are read follow the grammar. -/
theorem exists_memberList (hsym : sym.Coherent)
    (h : structMembers sym name loc eof members count ts = .ok (found, used)) :
    ∃ ms body tail, ts = body ++ tail ∧ MemberList sym ms body ∧ found = members ++ ms ∧
      used = count + body.length := by
  fun_induction structMembers sym name loc eof members count ts with
  | case2 members count t ts ht =>
    cases h
    exact ⟨[], [t], ts, rfl, .nil ht, (List.append_nil _).symm, rfl⟩
  | case6 => cases h
  | case7 members count t m ht _ u ty hu plain next ts _ ih =>
    obtain ⟨ms, body, tail, htokens, hbody, rfl, rfl⟩ := ih h
    have hitem : MemberItem sym ⟨m, ty, .zero ty⟩ [t, u] :=
      .plain ht ((Token.type?_eq_some_iff hsym).mp hu)
    refine ⟨_ :: ms, [t, u] ++ body, tail, ?_, .cons hitem hbody, ?_, ?_⟩
    · rw [htokens]
      rfl
    · rw [List.append_cons]
    · rw [List.length_append, Nat.add_assoc]
      rfl
  | case8 members count t m ht _ u ty hu d ts v hv given hdefault ih =>
    obtain ⟨ms, body, tail, htokens, hbody, rfl, rfl⟩ := ih h
    have hitem : MemberItem sym ⟨m, ty, ⟨v.bits, ty⟩⟩ [t, u, d] :=
      .given ht ((Token.type?_eq_some_iff hsym).mp hu) ((isDefaultOf_iff hv).mp hdefault) rfl
    refine ⟨_ :: ms, [t, u, d] ++ body, tail, ?_, .cons hitem hbody, ?_, ?_⟩
    · rw [htokens]
      rfl
    · rw [List.append_cons]
    · rw [List.length_append, Nat.add_assoc]
      rfl
  | case1 | case3 | case4 | case5 | case9 | case10 => cases h

/-! ## Definitions -/

namespace Resolution

variable {r r' : Resolution}

/-- The word without a meaning is declared as the tokens behind it say. -/
theorem step_of_unknown (hlookup : r.lookup name loc = .ok none)
    (hfresh : r.symbols.findStruct? name = none) :
    r.step eof ⟨.word name, loc⟩ rest =
      Shape.classify r.symbols name loc eof rest >>= r.declareShape eof name loc rest := by
  simp [step, word, hlookup, declare, hfresh]

theorem declareStruct_eq_ok_iff (hsym : r.symbols.Coherent) (htop : r.current = none) {t : Token} :
    r.declareStruct eof name loc (t :: ts) = .ok (r', used) ↔ ∃ members body tail,
      ts = body ++ tail ∧ MemberList r.symbols members body ∧ members ≠ [] ∧
      (members.map (·.name)).Nodup ∧ used = 1 + body.length ∧
      r' = { r with symbols := { r.symbols with
        structs := r.symbols.structs ++ [⟨name, members, loc⟩] } } := by
  constructor
  · intro h
    obtain ⟨_, members, hmembers, hne, rfl⟩ := declareStruct_eq h
    obtain ⟨ms, body, tail, rfl, hbody, rfl, rfl⟩ := exists_memberList hsym hmembers
    have hregular := RegularMembers.of_structMembers ⟨by simp, by simp⟩ hmembers
    exact ⟨members, body, tail, rfl, hbody, hne, hregular.names, rfl, rfl⟩
  · rintro ⟨members, body, tail, rfl, hbody, hne, hnames, rfl, rfl⟩
    have hnone : r.procedure? = none := by simp [procedure?, htop]
    have hread : structMembers r.symbols name loc eof [] 1 (body ++ tail) =
        .ok (members, 1 + body.length) := hbody.structMembers_eq hsym [] hnames tail
    simp [declareStruct, hnone, hread, hne, Symbols.addStruct]

end Resolution

/-- Struct definitions are read exactly by their grammar. At every point at top level of a
resolution, a word without a meaning that is followed by `struct` is declared if and only if a
non-empty list of members with different names and an `end` follow. Each member has a type that is
built in or declared before, and perhaps a literal of that type, or an address for a struct, as its
default. Then one struct with these members is added, and exactly these tokens are used. -/
theorem struct_definitions_follow_grammar {s : TokenStream} {r r' : Resolution} {ts : List Token}
    (hr : Resolution.Reaches s.eof {} s.tokens r ts) (htop : r.current = none) {name : String}
    {loc : Location} (hlookup : r.lookup name loc = .ok none)
    (hfresh : r.symbols.findStruct? name = none) (eof place : Location) (tokens : List Token)
    (used : Nat) :
    r.step eof ⟨.word name, loc⟩ (⟨.keyword .structKw, place⟩ :: tokens) = .ok (r', used) ↔
      ∃ members body tail, tokens = body ++ tail ∧ MemberList r.symbols members body ∧
        members ≠ [] ∧ (members.map (·.name)).Nodup ∧ used = 1 + body.length ∧
        r' = { r with symbols := { r.symbols with
          structs := r.symbols.structs ++ [⟨name, members, loc⟩] } } := by
  have hshape : Shape.classify r.symbols name loc eof (⟨.keyword .structKw, place⟩ :: tokens) =
      .ok .struct := rfl
  rw [Resolution.step_of_unknown hlookup hfresh, hshape, ok_bind]
  exact Resolution.declareStruct_eq_ok_iff (hr.coherent .empty .empty) htop

def earlierStruct : String :=
  "P struct x int y int 7 end f :: end"

theorem struct_with_all_items_is_read :
    ∃ s r ts d, TokenStream.ofSource "members" earlierStruct = .ok s ∧
      Resolution.Reaches s.eof {} s.tokens r ts ∧ r.symbols.structs = [d] ∧ d.name = "P" ∧
      ∀ tail, r.step s.eof ⟨.word "R", s.eof⟩ ([.keyword .structKw, .word "p", .word "P", .ptr 5,
          .word "q", .word "P", .word "n", .keyword .intKw, .int 3, .word "b", .keyword .boolKw,
          .bool true, .keyword .endKw].map (⟨·, s.eof⟩) ++ tail) =
        .ok ({ r with symbols := { r.symbols with structs := r.symbols.structs ++ [⟨"R",
          [⟨"p", .struct 0, ⟨5, .struct 0⟩⟩, ⟨"q", .struct 0, ⟨0, .struct 0⟩⟩,
            ⟨"n", .int, ⟨3, .int⟩⟩, ⟨"b", .bool, ⟨1, .bool⟩⟩], s.eof⟩] } }, 13) := by
  obtain ⟨s, r, ts, hs, hr, htop, hlookup, hfresh, hnames⟩ :=
    Resolution.exists_point (x := TokenStream.ofSource "members" earlierStruct)
      (P := fun s r => r.current = none ∧ r.lookup "R" s.eof = .ok none ∧
        r.symbols.findStruct? "R" = none ∧ r.symbols.structs.map (·.name) = ["P"])
      1 (by decide +kernel)
  obtain ⟨d, hd, hname⟩ := List.map_eq_singleton_iff.mp hnames
  have hP : NamesType r.symbols (.word "P") (.struct 0) := hname ▸ .struct (by rw [hd]; rfl)
  have hp := MemberItem.given (t := ⟨.word "p", s.eof⟩) (u := ⟨.word "P", s.eof⟩)
    (d := ⟨.ptr 5, s.eof⟩) rfl hP (.struct 5 0) rfl
  have hq := MemberItem.plain (t := ⟨.word "q", s.eof⟩) (u := ⟨.word "P", s.eof⟩) rfl hP
  have hn : MemberItem r.symbols _ _ := .given (t := ⟨.word "n", s.eof⟩)
    (u := ⟨.keyword .intKw, s.eof⟩) (d := ⟨.int 3, s.eof⟩) rfl .int (.int 3) rfl
  have hb : MemberItem r.symbols _ _ := .given (t := ⟨.word "b", s.eof⟩)
    (u := ⟨.keyword .boolKw, s.eof⟩) (d := ⟨.bool true, s.eof⟩) rfl .bool (.bool true) rfl
  have hend : MemberList r.symbols [] [⟨.keyword .endKw, s.eof⟩] := .nil rfl
  have hbody := MemberList.cons hp (.cons hq (.cons hn (.cons hb hend)))
  refine ⟨s, r, ts, d, hs, hr, hd, hname, fun tail => ?_⟩
  apply (struct_definitions_follow_grammar hr htop hlookup hfresh s.eof s.eof _ 13).mpr
  exact ⟨_, _, tail, rfl, hbody, by simp, by decide, rfl, rfl⟩

end StackEffect
