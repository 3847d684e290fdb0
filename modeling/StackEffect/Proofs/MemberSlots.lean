import StackEffect.Proofs.VariableWords

/-! # Words for the members of struct variables

The slot of a member is listed under the names of the variable and the member with a dot between
them, and words with such a name are looked up like all others. So they ask for the slot exactly
where nothing that is found first has the name: no entry of another table, no struct variable and no
other variable that is preferred.
-/

namespace StackEffect

/-! ## Words made of names -/

theorem stripSigil?_append_of_ne {owner : String} (hne : owner ≠ "") (sigil : Char)
    (rest : String) :
    stripSigil? sigil (owner ++ rest) = (stripSigil? sigil owner).map (· ++ rest) := by
  cases hlist : owner.toList with
  | nil => exact absurd (String.toList_eq_nil_iff.mp hlist) hne
  | cons c cs =>
    simp only [stripSigil?, String.toList_append, hlist, List.cons_append]
    split
    · simp [String.ofList_append]
    · rfl

theorem Intrinsic.dot_notMem_name (i : Intrinsic) : '.' ∉ i.name.toList := by
  cases i <;> decide

namespace Access

def word (access : Access) (name : String) : String :=
  match access with
  | load => name
  | store => "!" ++ name
  | addr => "*" ++ name

theorem ofWord_word_of_sigil {access : Access} (h : access ≠ load) (name : String) :
    ofWord (access.word name) = (access, name) := by
  cases access with
  | load => exact absurd rfl h
  | store =>
    have hsigil : stripSigil? '!' ("!" ++ name) = some name := stripSigil?_append '!' name
    simp [word, ofWord, hsigil]
  | addr =>
    have hsigil : stripSigil? '*' ("*" ++ name) = some name := stripSigil?_append '*' name
    have hother : stripSigil? '!' ("*" ++ name) = none := by simp [stripSigil?]
    simp [word, ofWord, hsigil, hother]

end Access

/-- A name of a variable that stays what it is with the name of a member behind it: it does not
start with a sigil, and is not itself the start of a member word. -/
structure LeadsWord (owner : String) : Prop where
  store : stripSigil? '!' owner = none
  addr : stripSigil? '*' owner = none
  dot : owner ≠ "."
  star : owner ≠ ".*"

section Words

variable {owner member : String} {access : Access}

theorem ofWord_load_iff (hne : owner ≠ "") :
    Access.ofWord (owner ++ "." ++ member) = (.load, owner ++ "." ++ member) ↔
      stripSigil? '!' owner = none ∧ stripSigil? '*' owner = none := by
  rw [String.append_assoc, Access.ofWord, stripSigil?_append_of_ne hne,
    stripSigil?_append_of_ne hne]
  cases stripSigil? '!' owner <;> cases stripSigil? '*' owner <;> simp

/-- A name that is no member word starts one only if it is a dot, or a dot and a star. -/
theorem memberWord?_append_iff (hne : owner ≠ "") (howner : memberWord? owner = none) :
    memberWord? (owner ++ "." ++ member) = none ↔ owner ≠ "." ∧ owner ≠ ".*" := by
  constructor
  · intro h
    constructor
    · rintro rfl
      have hload : memberWord? ("." ++ ("." ++ member)) = some (.load, "." ++ member) :=
        memberWord?_load (by simp) (by simp [stripSigil?])
      rw [String.append_assoc, hload] at h
      cases h
    · rintro rfl
      have hstar : stripSigil? '*' ("*" ++ ("." ++ member)) = some ("." ++ member) :=
        stripSigil?_append '*' _
      have haddr := memberWord?_star hstar (by simp)
      rw [show ".*" ++ "." ++ member = "." ++ ("*" ++ ("." ++ member)) by
        rw [← String.append_assoc, ← String.append_assoc]; rfl, haddr] at h
      cases h
  · rintro ⟨hdot, hstar⟩
    have hnone : stripSigil? '.' owner = none := by
      cases hrest : stripSigil? '.' owner with
      | none => rfl
      | some rest =>
        have howner' := toList_of_stripSigil? hrest
        cases hname : stripSigil? '*' rest with
        | none =>
          obtain rfl : rest = "" := by simpa [memberWord?, hrest, hname] using howner
          exact absurd (String.toList_injective howner') hdot
        | some name =>
          obtain rfl : name = "" := by simpa [memberWord?, hrest, hname] using howner
          rw [toList_of_stripSigil? hname] at howner'
          exact absurd (String.toList_injective howner') hstar
    rw [String.append_assoc, memberWord?, stripSigil?_append_of_ne hne, hnone]
    rfl

theorem dot_mem_word (access : Access) (owner member : String) :
    '.' ∈ (access.word (owner ++ "." ++ member)).toList := by
  cases access <;> simp [Access.word]

/-- A name of a variable with that of a member behind it has no fixed meaning, except that a load
from it may be read as a member word. -/
theorem isName_word_iff (hne : owner ≠ "") (howner : Resolution.IsName owner) :
    Resolution.IsName (access.word (owner ++ "." ++ member)) ↔
      (access = .load → owner ≠ "." ∧ owner ≠ ".*") := by
  have hprimitive : Resolution.primitive? (access.word (owner ++ "." ++ member)) = none := by
    rw [Resolution.primitive?, Option.map_eq_none_iff, Option.eq_none_iff_forall_ne_some]
    intro i hi
    have hdot := dot_mem_word access owner member
    rw [← Intrinsic.name_of_ofName? hi] at hdot
    exact i.dot_notMem_name hdot
  have hcast : stripSigil? '#' (access.word (owner ++ "." ++ member)) = none := by
    cases access with
    | load => rw [Access.word, String.append_assoc, stripSigil?_append_of_ne hne, howner.cast]; rfl
    | store | addr => simp [Access.word, stripSigil?]
  have hmember : Resolution.memberAccess? (access.word (owner ++ "." ++ member)) = none ↔
      (access = .load → owner ≠ "." ∧ owner ≠ ".*") := by
    rw [Resolution.memberAccess?, Option.map_eq_none_iff]
    cases access with
    | load =>
      have hnone : memberWord? owner = none := Option.map_eq_none_iff.mp howner.member
      simp [Access.word, memberWord?_append_iff hne hnone]
    | store | addr => simp [Access.word, memberWord?, stripSigil?]
  exact ⟨fun h => hmember.mp h.member, fun h => ⟨hmember.mpr h, hprimitive, hcast⟩⟩

end Words

/-! ## Names of struct variables -/

structure Symbols.StructVarNames (P : String → Prop) (s : Symbols) : Prop where
  globals : ∀ v ∈ s.globalStructs, P v.name
  locals : ∀ p ∈ s.procs, ∀ v ∈ p.localStructs, P v.name

theorem Symbols.StructVarNames.of_mem {P : String → Prop} {s : Symbols} (h : s.StructVarNames P)
    {scope : Scope} {v : Aggregate} (hv : v ∈ s.structVars scope) : P v.name := by
  cases scope with
  | global => exact h.globals v hv
  | frame id =>
    cases hp : s.procs[id]? with
    | none => simp [structVars, hp] at hv
    | some p =>
      simp only [structVars, hp, Option.elim_some] at hv
      exact h.locals p (List.mem_of_getElem? hp) v hv

namespace Resolution

variable {r r' : Resolution} {eof loc : Location} {t : Token} {ts rest : List Token} {used : Nat}
  {name : String} {P : String → Prop}

theorem Declares.structVarNames (h : Declares r name loc r') (hname : P name)
    (hr : r.symbols.StructVarNames P) : r'.symbols.StructVarNames P := by
  have hown {pid : Nat} {p : Procedure} (hproc : r.procedure? = some (pid, p)) :
      ∀ v ∈ p.localStructs, P v.name :=
    hr.locals p (List.mem_of_getElem? (procedure?_eq_some.mp hproc).2)
  cases h with
  | struct | const | structConst | var | memory => exact ⟨hr.globals, hr.locals⟩
  | structVar =>
    exact ⟨List.forall_mem_append.mpr ⟨hr.globals, List.forall_mem_singleton.mpr hname⟩, hr.locals⟩
  | localVar hproc | localMemory hproc =>
    have hsame := hown hproc
    exact ⟨hr.globals, Symbols.forall_modifyProc hr.locals hsame⟩
  | localStructVar hproc =>
    refine ⟨hr.globals, Symbols.forall_modifyProc hr.locals ?_⟩
    exact List.forall_mem_append.mpr ⟨hown hproc, List.forall_mem_singleton.mpr hname⟩

theorem Move.structVarNames (h : Move eof r t rest r' used) (hsound : Sound r)
    (hnew : ∀ text, t.kind = .word text → r.lookup text t.loc = .ok none → P text)
    (hr : r.symbols.StructVarNames P) : r'.symbols.StructVarNames P := by
  cases h with
  | literal | string | word | openIf | openElse | closeIf | closeElse | closeProc => exact hr
  | openLet _ hp | closeLet _ _ _ hp =>
    have hown := hr.locals _ (List.mem_of_getElem? (procedure?_eq_some.mp hp).2)
    exact ⟨hr.globals, Symbols.forall_modifyProc hr.locals hown⟩
  | declare ht hm _ hshape hproc hdeclare =>
    exact (declareShape_declares (Shape.declared_of_classify hsound.tables hshape) hproc
      hdeclare).structVarNames (hnew _ ht hm) hr
  | declareProc _ _ _ _ hdeclare =>
    obtain ⟨_, p, _, _, hblank, _, _, rfl⟩ := declareProc_eq_ok hdeclare
    refine ⟨hr.globals, List.forall_mem_append.mpr ⟨hr.locals, List.forall_mem_singleton.mpr ?_⟩⟩
    simp [hblank.localStructs]

/-- Struct variables have names without a fixed meaning that are words of the text. -/
theorem Reaches.structVarNames (h : Reaches eof {} ts r rest) :
    r.symbols.StructVarNames fun name => IsName name ∧ ∃ t ∈ ts, t.kind = .word name := by
  induction h with
  | start => exact ⟨by simp, by simp⟩
  | step h hstep ih =>
    refine (step_move hstep).structVarNames (h.sound .empty) (fun text ht hnone => ?_) ih
    exact ⟨isName_of_lookup hnone, _, h.suffix.subset List.mem_cons_self, ht⟩

end Resolution

/-! ## Slots that are found -/

/-- Of two variables with one name, the slot is found and not the other: the earlier one in a
procedure, the later one of the global variables. -/
def Scope.Prefers : Scope → Nat → Nat → Prop
  | .frame _, slot, other => slot ≤ other
  | .global, slot, other => other ≤ slot

/-- Nothing hides a slot from the words with its name: no struct variable of the scope has the name,
no variable of the scope that is preferred has it, and if the slot is global, no variable of the
procedure under way. -/
structure Resolution.Unhidden (r : Resolution) (scope : Scope) (slot : Nat) (name : String) :
    Prop where
  structs : ∀ u ∈ r.symbols.structVars scope, u.name ≠ name
  others : ∀ j u, (r.symbols.vars scope)[j]? = some u → u.name = name → scope.Prefers slot j
  own : scope = .global → r.NoneOwn name

instance : (scope : Scope) → (slot other : Nat) → Decidable (scope.Prefers slot other)
  | .frame _, slot, other => inferInstanceAs (Decidable (slot ≤ other))
  | .global, slot, other => inferInstanceAs (Decidable (other ≤ slot))

instance (r : Resolution) (scope : Scope) (slot : Nat) (name : String) :
    Decidable (r.Unhidden scope slot name) :=
  decidable_of_iff ((∀ u ∈ r.symbols.structVars scope, u.name ≠ name) ∧
      (∀ p ∈ (r.symbols.vars scope).zipIdx, p.1.name = name → scope.Prefers slot p.2) ∧
      (scope = .global → r.NoneOwn name)) (by
    constructor
    · rintro ⟨hstructs, hothers, hown⟩
      exact ⟨hstructs, fun j u hu => hothers (u, j) (List.mem_zipIdx_iff_getElem?.mpr hu), hown⟩
    · rintro ⟨hstructs, hothers, hown⟩
      exact ⟨hstructs, fun p hp => hothers p.2 p.1 (List.mem_zipIdx_iff_getElem?.mp hp), hown⟩)

namespace Resolution

variable {r : Resolution} {scope : Scope} {slot : Nat} {name : String} {u : Scalar}

theorem SeesVar.unhidden (h : r.SeesVar name slot u scope) : r.Unhidden scope slot name := by
  cases scope with
  | global =>
    obtain ⟨hown, hstruct, hu⟩ := h
    exact ⟨Named.last?_eq_none.mp hstruct, fun j w hj hw => Named.le_last? hu hj hw, fun _ => hown⟩
  | frame id =>
    obtain ⟨p, hproc, hstruct, hu⟩ := h
    obtain ⟨_, hvars, hstructVars, _⟩ := scope_of_procedure hproc
    constructor
    · rw [hstructVars]
      exact Named.first?_eq_none.mp hstruct
    · rw [hvars]
      exact fun j w hj hw => Named.first?_le hu hj hw
    · intro hglobal
      cases hglobal

/-- A slot that nothing hides is what is seen under its name. -/
theorem Unhidden.seesVar (h : r.Unhidden scope slot name)
    (hscope : ∀ id, scope = .frame id → r.current = some id)
    (hu : (r.symbols.vars scope)[slot]? = some u) (hname : u.name = name) :
    r.SeesVar name slot u scope := by
  cases scope with
  | global =>
    exact ⟨h.own rfl, Named.last?_eq_none.mpr h.structs, Named.last?_of_le hu hname h.others⟩
  | frame id =>
    cases hp : r.symbols.procs[id]? with
    | none => simp [Symbols.vars, hp] at hu
    | some p =>
      have hproc : r.procedure? = some (id, p) := procedure?_eq_some.mpr ⟨hscope id rfl, hp⟩
      obtain ⟨_, hvars, hstructVars, _⟩ := scope_of_procedure hproc
      have hstructs := h.structs
      have hothers := h.others
      rw [hstructVars] at hstructs
      rw [hvars] at hu hothers
      exact ⟨p, hproc, Named.first?_eq_none.mpr hstructs, Named.first?_of_le hu hname hothers⟩

end Resolution

/-- The slot of a member is listed under the names of the variable and the member. -/
theorem Aggregate.Backed.exists_slot {s : Symbols} {table : List Scalar} {v : Aggregate}
    (h : v.Backed s.structs table) {i slot : Nat} {m : Member}
    (hm : (s.members v.struct)[i]? = some m) (hslot : v.members[i]? = some slot) :
    ∃ u, table[slot]? = some u ∧ u.name = s!"{v.name}.{m.name}" ∧ u.value.ty = m.ty := by
  obtain ⟨d, first, hd, hmembers, hentries⟩ := h
  simp only [Symbols.members, hd, Option.elim_some] at hm
  obtain ⟨u, hu⟩ := hentries i m hm
  have hi : first + i = slot := by
    rw [hmembers, List.getElem?_range' (List.getElem?_eq_some_iff.mp hm).1] at hslot
    simpa using hslot
  exact ⟨u, hi ▸ hu⟩

namespace Resolution

variable {r : Resolution} {scope scope' : Scope} {slot : Nat} {name : String} {u : Scalar}

/-- The slots of a struct variable have longer names than the variable. -/
theorem SeesStruct.name_ne {w : Aggregate} (h : r.SeesStruct name w scope)
    (hcoherent : r.symbols.Coherent) {m : Member}
    (hslot : (slot, m) ∈ w.members.zip (r.symbols.members w.struct))
    (hu : (r.symbols.vars scope)[slot]? = some u) : u.name ≠ name := by
  obtain ⟨k, hk⟩ := List.mem_iff_getElem?.mp hslot
  obtain ⟨hk, hm⟩ := List.getElem?_zip_eq_some.mp hk
  obtain ⟨u', hu', hname', _⟩ := (hcoherent.backed h.mem).exists_slot hm hk
  obtain rfl : u' = u := Option.some.inj (hu'.symm.trans hu)
  have hname : w.name = name := by
    cases scope with
    | global =>
      obtain ⟨_, i, hw⟩ := h
      exact Named.name_of_last? hw
    | frame id =>
      obtain ⟨p, i, _, hw⟩ := h
      exact Named.name_of_first? hw
  intro hsame
  have hlonger : w.name ++ ("." ++ m.name) = w.name := by
    rw [← String.append_assoc, hname]
    exact (hname ▸ hname').symm.trans hsame
  have hlength := congrArg (fun text => text.toList.length) hlonger
  simp at hlength

/-- Access to a struct variable is not access to a slot of the same name. -/
theorem SeesStruct.structOps_ne {w : Aggregate} (h : r.SeesStruct name w scope')
    (hcoherent : r.symbols.Coherent) (hu : (r.symbols.vars scope)[slot]? = some u)
    (hname : u.name = name) (access : Access) (ty : Ty) :
    access.structOps scope' w (r.symbols.members w.struct) ≠
      [access.scalarOp ⟨scope, slot⟩ ty] := by
  intro heq
  cases access with
  | load =>
    obtain ⟨⟨i, m⟩, hzip, hop⟩ := List.map_eq_singleton_iff.mp heq
    cases hop
    exact h.name_ne hcoherent (by rw [hzip]; exact List.mem_singleton_self _) hu hname
  | store =>
    obtain ⟨⟨i, m⟩, hzip, hop⟩ := List.map_eq_singleton_iff.mp heq
    cases hop
    have hmem : (slot, m) ∈ (w.members.zip (r.symbols.members w.struct)).reverse := by
      rw [hzip]
      exact List.mem_singleton_self _
    exact h.name_ne hcoherent (List.mem_reverse.mp hmem) hu hname
  | addr =>
    obtain ⟨i, _, hop⟩ := List.map_eq_singleton_iff.mp heq
    cases hop

theorem ofWord_word_of_access {access : Access}
    (h : (Access.ofWord (access.word name)).1 = access) :
    Access.ofWord (access.word name) = (access, name) := by
  by_cases hload : access = .load
  · subst hload
    exact Prod.ext h (Access.ofWord_of_load h)
  · exact Access.ofWord_word_of_sigil hload name

theorem ref_of_scalarOp {access : Access} {ref ref' : Ref} {ty ty' : Ty}
    (h : access.scalarOp ref ty = access.scalarOp ref' ty') : ref = ref' := by
  cases access <;> cases h <;> rfl

/-- The word with the name of a slot asks for access to the slot if and only if it is read as a word
for variables, nothing that is looked up earlier has it, and nothing hides the slot. -/
theorem lookup_slot_iff (hcoherent : r.symbols.Coherent) {owner member : String}
    (howner : IsName owner) (hne : owner ≠ "")
    (hscope : ∀ id, scope = .frame id → r.current = some id)
    (hu : (r.symbols.vars scope)[slot]? = some u) (hname : u.name = owner ++ "." ++ member)
    (access : Access) (here : Location) :
    (∃ m, r.lookup (access.word (owner ++ "." ++ member)) here = .ok (some m) ∧
        m.ops = [access.scalarOp ⟨scope, slot⟩ u.value.ty]) ↔
      (access = .load → LeadsWord owner) ∧ r.Unclaimed (access.word (owner ++ "." ++ member)) ∧
        r.Unhidden scope slot (owner ++ "." ++ member) := by
  constructor
  · rintro ⟨m, hm, hops⟩
    have hkind : access.scalarOp ⟨scope, slot⟩ u.value.ty ∈ m.ops := by simp [hops]
    obtain ⟨hisName, hunclaimed, hvar⟩ :=
      unclaimed_of_lookup hm hkind (Access.access?_scalarOp _ _ _)
    have haccess := (access?_of_namedVar? hvar hkind).symm.trans (Access.access?_scalarOp _ _ _)
    have hword := ofWord_word_of_access (Option.some.inj haccess)
    refine ⟨?_, hunclaimed, ?_⟩
    · rintro rfl
      obtain ⟨hstore, haddr⟩ := (ofWord_load_iff hne).mp hword
      obtain ⟨hdot, hstar⟩ := (isName_word_iff hne howner).mp hisName rfl
      exact ⟨hstore, haddr, hdot, hstar⟩
    · rcases namedVar?_cases hword hvar with ⟨scope', w, hw, rfl⟩ | ⟨scope', j, w, hw, rfl⟩
      · exact absurd hops (hw.structOps_ne hcoherent hu hname access _)
      · obtain ⟨rfl, rfl⟩ := Ref.mk.inj (ref_of_scalarOp (List.singleton_inj.mp hops))
        exact hw.unhidden
  · rintro ⟨hleads, hunclaimed, hunhidden⟩
    have hword : Access.ofWord (access.word (owner ++ "." ++ member)) =
        (access, owner ++ "." ++ member) := by
      by_cases hload : access = .load
      · subst hload
        exact (ofWord_load_iff hne).mpr ⟨(hleads rfl).store, (hleads rfl).addr⟩
      · exact Access.ofWord_word_of_sigil hload _
    have hisName : IsName (access.word (owner ++ "." ++ member)) :=
      (isName_word_iff hne howner).mpr fun hload => ⟨(hleads hload).dot, (hleads hload).star⟩
    refine ⟨⟨[access.scalarOp ⟨scope, slot⟩ u.value.ty], some u.loc⟩, ?_, rfl⟩
    rw [hunclaimed.lookup hisName, (hunhidden.seesVar hscope hu hname).namedVar? hword]

end Resolution

/-- Words for the members of a struct variable reach its slots. At every point of a resolution where
the variable can be seen, the names of the variable and a member with a dot between them, alone or
behind a sigil, stand for a load from, a store to or the address of the slot of the member exactly
where nothing else has the word and nothing hides the slot. The words for a load of the whole
variable and for a store to it operate on the same slots. -/
theorem member_words_reach_their_slots {file source : String} {s : TokenStream} {r : Resolution}
    {rest : List Token} (hs : TokenStream.ofSource file source = .ok s)
    (hr : Resolution.Reaches s.eof {} s.tokens r rest) {scope : Scope} {v : Aggregate}
    (hv : v ∈ r.symbols.structVars scope) (hscope : ∀ id, scope = .frame id → r.current = some id)
    {i slot : Nat} {m : Member} (hm : (r.symbols.members v.struct)[i]? = some m)
    (hslot : v.members[i]? = some slot) (here : Location) :
    (∀ access : Access,
      (∃ meaning, r.lookup (access.word s!"{v.name}.{m.name}") here = .ok (some meaning) ∧
        meaning.ops = [access.scalarOp ⟨scope, slot⟩ m.ty]) ↔
      (access = .load → LeadsWord v.name) ∧ r.Unclaimed (access.word s!"{v.name}.{m.name}") ∧
        r.Unhidden scope slot s!"{v.name}.{m.name}") ∧
    (∀ w, r.AsksFor w .load scope v → ∃ meaning, r.lookup w here = .ok (some meaning) ∧
      meaning.ops[i]? = some (.loadVar ⟨scope, slot⟩ m.ty)) ∧
    ∀ w, r.AsksFor w .store scope v → ∃ meaning, r.lookup w here = .ok (some meaning) ∧
      meaning.ops.reverse[i]? = some (.storeVar ⟨scope, slot⟩ m.ty) := by
  have hcoherent := hr.coherent .empty .empty
  obtain ⟨u, hu, hname, hty⟩ := (hcoherent.backed hv).exists_slot hm hslot
  obtain ⟨howner, t, ht, hword⟩ := hr.structVarNames.of_mem hv
  have hne := TokenStream.word_ne_empty hs t ht v.name hword
  have hcell : (v.members.zip (r.symbols.members v.struct))[i]? = some (slot, m) :=
    List.getElem?_zip_eq_some.mpr ⟨hslot, hm⟩
  refine ⟨fun access => ?_, fun w hw => ⟨_, hw.lookup here, ?_⟩,
    fun w hw => ⟨_, hw.lookup here, ?_⟩⟩
  · rw [← hty]
    exact Resolution.lookup_slot_iff hcoherent howner hne hscope hu hname access here
  · simp [Access.structOps, hcell]
  · simp [Access.structOps, hcell]

def memberText : String :=
  "S struct a int b bool end x : S 1 true end f :: y : S end x.a drop y.b !y.b end"

theorem member_words_of_text_reach_their_slots :
    ∃ s r rest meaning, TokenStream.ofSource "member" memberText = .ok s ∧
      Resolution.Reaches s.eof {} s.tokens r rest ∧
      r.lookup "!y.b" s.eof = .ok (some meaning) ∧
      meaning.ops = [.storeVar ⟨.frame 0, 1⟩ .bool] := by
  obtain ⟨s, r, rest, hs, hr, hcurrent, v, hv, m, hm, hslot, hname, hty, hunclaimed, hunhidden⟩ :=
    Resolution.exists_point (x := TokenStream.ofSource "member" memberText)
      (P := fun s r => r.current = some 0 ∧ ∃ v ∈ (r.symbols.structVars (.frame 0)).head?,
        ∃ m ∈ (r.symbols.members v.struct)[1]?, v.members[1]? = some 1 ∧
          s!"{v.name}.{m.name}" = "y.b" ∧ m.ty = .bool ∧ r.Unclaimed "!y.b" ∧
          r.Unhidden (.frame 0) 1 "y.b") 4 (by decide +kernel)
  have hreach := (member_words_reach_their_slots hs hr (List.mem_of_head? hv)
    (fun id hid => by rw [hcurrent, (Scope.frame.inj hid)]) hm hslot s.eof).1 .store
  rw [hname, hty] at hreach
  obtain ⟨meaning, hmeaning, hops⟩ := hreach.mpr ⟨nofun, hunclaimed, hunhidden⟩
  exact ⟨s, r, rest, meaning, hs, hr, hmeaning, hops⟩

/-- In a text that resolves, the first struct variable of a scope can be seen, and a word that is
not bound is one for its first member but does not reach its slot. -/
def Resolution.Misses (scope : Scope) (access : Access) (word : String) (s : TokenStream)
    (r : Resolution) : Prop :=
  (Program.ofTokens s).toOption.isSome ∧ r.current = some 0 ∧ r.binding? word = none ∧
    ∃ v ∈ (r.symbols.structVars scope).head?, ∃ m ∈ (r.symbols.members v.struct).head?,
      access.word s!"{v.name}.{m.name}" = word ∧ ∃ slot ∈ v.members.head?,
      ∃ meaning ∈ (r.lookup word s.eof).toOption.join,
        meaning.ops ≠ [access.scalarOp ⟨scope, slot⟩ m.ty]

instance (scope : Scope) (access : Access) (word : String) (s : TokenStream) (r : Resolution) :
    Decidable (Resolution.Misses scope access word s r) :=
  inferInstanceAs (Decidable (_ ∧ _ ∧ _ ∧ ∃ _, _))

/-- A text with a word for a member that misses the slot. -/
def MissesSlot (source : String) (scope : Scope) (access : Access) (word : String) : Prop :=
  ∃ s r rest, TokenStream.ofSource "missing" source = .ok s ∧
    Resolution.Reaches s.eof {} s.tokens r rest ∧ Resolution.Misses scope access word s r

def slotBehindConst : String :=
  "x.m :: 1 end\nS struct m int end\nx : S end\nf :: x.m print end"

def slotBehindSlot : String :=
  "S struct b.c int end\nT struct c int end\na : S end\na.b : T end\nf :: a.b.c print end"

def slotBehindVar : String :=
  "S struct m int end\nf :: x.m int 1 end x : S end x.m print end"

def slotBehindSigil : String :=
  "S struct m int end\n!x : S end\nx : S end\nf :: 5 !x.m end"

/-- Each way in which a word for a member is taken or its slot hidden makes it miss the slot. -/
theorem hidden_slots_are_missed :
    MissesSlot slotBehindConst .global .load "x.m" ∧
    MissesSlot slotBehindSlot .global .load "a.b.c" ∧
    MissesSlot slotBehindVar (.frame 0) .load "x.m" ∧
    MissesSlot slotBehindSigil .global .load "!x.m" :=
  ⟨Resolution.exists_point 4 (by decide +kernel), Resolution.exists_point 5 (by decide +kernel),
    Resolution.exists_point 4 (by decide +kernel), Resolution.exists_point 4 (by decide +kernel)⟩

end StackEffect
