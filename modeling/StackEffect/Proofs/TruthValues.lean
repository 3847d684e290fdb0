import StackEffect.Proofs.Locality
import StackEffect.Proofs.Names
import StackEffect.Proofs.StructTransfers

/-! # Truth values in the tables

A truth value is zero or one, and the operation that pushes a truth constant pushes one of these. A
fold has ways to make other words truth values: a cast, the sum of two ones, and a one taken from a
zero. The tables record what initializers leave, so all truth values in them are zero or one exactly
if no initializer has left another. Then a constant means the same in a fold as in a body, and a
fold does not change when constants are written out as the literals that stand for them.
-/
namespace StackEffect

namespace Value

/-- A value that is zero or one if it is a truth value. -/
def Canonical (v : Value) : Prop :=
  v.ty = .bool → v.bits = 0 ∨ v.bits = 1

instance (v : Value) : Decidable v.Canonical :=
  inferInstanceAs (Decidable (_ → _))

variable {v : Value}

theorem canonical_bool (b : Bool) : (bool b).Canonical := by
  cases b <;> decide

theorem canonical_zero (ty : Ty) : (zero ty).Canonical :=
  fun _ => .inl rfl

theorem Canonical.exists_bool (h : v.Canonical) (hbool : v.ty = .bool) : ∃ b, v = bool b := by
  obtain ⟨bits, ty⟩ := v
  obtain rfl : ty = .bool := hbool
  rcases h rfl with hbits | hbits
  · exact ⟨false, by simpa [bool] using hbits⟩
  · exact ⟨true, by simpa [bool] using hbits⟩

/-- A value is the one that its literal pushes if and only if it is canonical. -/
theorem literal_eq_iff : v.literal = v ↔ v.Canonical := by
  constructor
  · intro h hbool
    rw [literal, hbool] at h
    exact h ▸ canonical_bool _ rfl
  · intro h
    unfold literal
    split
    · rename_i hbool
      obtain ⟨b, rfl⟩ := h.exists_bool hbool
      cases b <;> rfl
    · rfl

theorem canonical_of_literal? {kind : TokenKind} (h : kind.literal? = some v) : v.Canonical := by
  cases kind with
  | int | ptr =>
    cases h
    intro hbool
    cases hbool
  | bool b =>
    cases h
    exact canonical_bool b
  | word | keyword | str => cases h

end Value

/-! ## Folds -/

namespace Fold

/-- A word makes a truth value that is neither zero nor one: it casts another word to one, adds two
ones, or takes a one from a zero. -/
def Forges (sym : Symbols) (kind : TokenKind) (st : List Value) : Prop :=
  ∃ text ∈ kind.word?,
    (∃ v ∈ st.head?, (stripSigil? '#' text).bind sym.castTarget? = some .bool ∧
      v.bits ≠ 0 ∧ v.bits ≠ 1) ∨
    (text = Intrinsic.add.name ∧ st.take 2 = [.bool true, .bool true]) ∨
    (text = Intrinsic.sub.name ∧ st.take 2 = [.bool true, .bool false])

/-- No token up to the first `end` forges a truth value. -/
def Honest (sym : Symbols) : List Value → List Token → Prop
  | _, [] => True
  | st, t :: ts => t.kind = .keyword .endKw ∨
      ¬ Forges sym t.kind st ∧ ∀ next, token sym t st = .ok next → Honest sym next ts

/-- All truth values that the initializer at the head of a token list leaves are zero or one. -/
def Truthful (sym : Symbols) (eof : Location) (ts : List Token) : Prop :=
  ∀ folded, Folded.ofTokens sym eof ts = .ok folded → ∀ v ∈ folded.values, v.Canonical

variable {sym : Symbols} {loc : Location} {st st' : List Value}

theorem canonical_of_binary {word : String} {f : Value → Value → Except Fault Value}
    (hst : ∀ v ∈ st, v.Canonical)
    (hf : ∀ top below rest v, st = top :: below :: rest → below.ty = top.ty →
      f below top = .ok v → v.Canonical)
    (h : binary sym word loc f st = .ok st') : ∀ v ∈ st', v.Canonical := by
  unfold binary at h
  split at h
  · rename_i top below rest
    split at h
    · rename_i hty
      obtain ⟨v, hv, rfl⟩ := map_eq_ok h
      simp only [List.forall_mem_cons] at hst
      exact List.forall_mem_cons.mpr ⟨hf top below rest v rfl hty hv, hst.2.2⟩
    · cases h
  · cases h

theorem canonical_of_intrinsic? {i : Intrinsic} {effect : List Value → Except Fault (List Value)}
    (hi : intrinsic? sym loc i = some effect) (hforges : ¬ Forges sym (.word i.name) st)
    (hst : ∀ v ∈ st, v.Canonical) (h : effect st = .ok st') : ∀ v ∈ st', v.Canonical := by
  have htruth {top below : Value} {rest : List Value} (hsplit : st = top :: below :: rest)
      (hty : below.ty = top.ty) (hbool : below.ty = .bool) :
      ∃ a b, below = .bool a ∧ top = .bool b := by
    simp only [hsplit, List.forall_mem_cons] at hst
    obtain ⟨a, ha⟩ := hst.2.1.exists_bool hbool
    obtain ⟨b, hb⟩ := hst.1.exists_bool (hty ▸ hbool)
    exact ⟨a, b, ha, hb⟩
  cases i with
  | dup | drop | swap | dupUnder | rot =>
    cases hi
    simp only at h
    split at h
    · cases h
      simp_all
    · cases h
  | add =>
    cases hi
    refine canonical_of_binary hst (fun top below rest v hsplit hty hv hbool => ?_) h
    cases hv
    obtain ⟨a, b, rfl, rfl⟩ := htruth hsplit hty hbool
    by_cases hones : a = true ∧ b = true
    · obtain ⟨rfl, rfl⟩ := hones
      exact absurd ⟨_, rfl, .inr (.inl ⟨rfl, by simp [hsplit]⟩)⟩ hforges
    · revert hones
      cases a <;> cases b <;> decide
  | sub =>
    cases hi
    refine canonical_of_binary hst (fun top below rest v hsplit hty hv hbool => ?_) h
    cases hv
    obtain ⟨a, b, rfl, rfl⟩ := htruth hsplit hty hbool
    by_cases hones : a = false ∧ b = true
    · obtain ⟨rfl, rfl⟩ := hones
      exact absurd ⟨_, rfl, .inr (.inr ⟨rfl, by simp [hsplit]⟩)⟩ hforges
    · revert hones
      cases a <;> cases b <;> decide
  | mul =>
    cases hi
    refine canonical_of_binary hst (fun top below rest v _ _ hv => ?_) h
    unfold product at hv
    split at hv
    · cases hv
      intro hbool
      cases hbool
    · cases hv
  | eq | ne =>
    cases hi
    refine canonical_of_binary hst (fun top below rest v _ _ hv => ?_) h
    cases hv
    exact Value.canonical_bool _
  | _ => cases hi

theorem canonical_of_cast {text target : String} (htarget : stripSigil? '#' text = some target)
    (hforges : ¬ Forges sym (.word text) st) (hst : ∀ v ∈ st, v.Canonical)
    (h : cast sym text target loc st = .ok st') : ∀ v ∈ st', v.Canonical := by
  unfold cast at h
  split at h
  · cases h
  · rename_i ty v rest hty
    cases h
    refine List.forall_mem_cons.mpr ⟨?_, (List.forall_mem_cons.mp hst).2⟩
    intro hbool
    obtain rfl : ty = .bool := hbool
    by_contra hbits
    simp only [not_or] at hbits
    exact hforges ⟨text, rfl, .inl ⟨v, rfl, by simp [htarget, hty], hbits.1, hbits.2⟩⟩
  · cases h

theorem canonical_of_constValues (hsym : ∀ c ∈ sym.consts, c.value.Canonical) (c : Aggregate) :
    ∀ v ∈ sym.constValues c, v.Canonical := by
  intro v hv
  obtain ⟨i, _, hi⟩ := List.mem_filterMap.mp hv
  obtain ⟨c, hc, rfl⟩ := Option.map_eq_some_iff.mp hi
  exact hsym c (List.mem_of_getElem? hc)

theorem canonical_of_constant (hsym : ∀ c ∈ sym.consts, c.value.Canonical) {word : String}
    (hst : ∀ v ∈ st, v.Canonical) (h : constant sym word loc st = .ok st') :
    ∀ v ∈ st', v.Canonical := by
  unfold constant at h
  split at h
  · cases h
    refine List.forall_mem_append.mpr ⟨fun v hv => ?_, hst⟩
    exact canonical_of_constValues hsym _ v (List.mem_reverse.mp hv)
  · split at h
    · rename_i i c hc
      cases h
      have hmem := List.mem_of_getElem? (Named.getElem?_of_last? hc)
      exact List.forall_mem_cons.mpr ⟨hsym c hmem, hst⟩
    · cases h

theorem canonical_of_word (hsym : ∀ c ∈ sym.consts, c.value.Canonical) {text : String}
    (hforges : ¬ Forges sym (.word text) st) (hst : ∀ v ∈ st, v.Canonical)
    (h : word sym text loc st = .ok st') : ∀ v ∈ st', v.Canonical := by
  unfold word at h
  split at h
  · rename_i effect heffect
    obtain ⟨i, hname, hi⟩ := Option.bind_eq_some_iff.mp heffect
    obtain rfl := Intrinsic.name_of_ofName? hname
    exact canonical_of_intrinsic? hi hforges hst h
  · split at h
    · rename_i target htarget
      exact canonical_of_cast htarget hforges hst h
    · exact canonical_of_constant hsym hst h

/-- A token that forges nothing keeps all values canonical. -/
theorem canonical_of_token (hsym : ∀ c ∈ sym.consts, c.value.Canonical) {t : Token}
    (hforges : ¬ Forges sym t.kind st) (hst : ∀ v ∈ st, v.Canonical)
    (h : token sym t st = .ok st') : ∀ v ∈ st', v.Canonical := by
  unfold token at h
  split at h
  · cases h
    exact List.forall_mem_cons.mpr ⟨by simp [Value.Canonical, Value.int], hst⟩
  · cases h
    exact List.forall_mem_cons.mpr ⟨Value.canonical_bool _, hst⟩
  · cases h
    exact List.forall_mem_cons.mpr ⟨by simp [Value.Canonical, Value.ptr], hst⟩
  · rename_i text ht
    rw [ht] at hforges
    exact canonical_of_word hsym hforges hst h
  · cases h
  · cases h

/-- An honest fold leaves canonical values. -/
theorem canonical_of_run (hsym : ∀ c ∈ sym.consts, c.value.Canonical) {eof : Location}
    {count : Nat} {ts : List Token} {folded : Folded} (hhonest : Honest sym st ts)
    (hst : ∀ v ∈ st, v.Canonical) (h : run sym eof st count ts = .ok folded) :
    ∀ v ∈ folded.values, v.Canonical := by
  induction ts generalizing st count with
  | nil => cases h
  | cons t ts ih =>
    unfold run at h
    split at h
    · cases h
      simpa using hst
    · rename_i hend
      obtain ⟨hforges, hrest⟩ := hhonest.resolve_left hend
      split at h
      · rename_i next htoken
        exact ih (hrest next htoken) (canonical_of_token hsym hforges hst htoken) h
      · cases h

theorem Honest.truthful (hsym : ∀ c ∈ sym.consts, c.value.Canonical) {eof : Location}
    {ts : List Token} (h : Honest sym [] ts) : Truthful sym eof ts :=
  fun _ hfolded => canonical_of_run hsym h (by simp) hfolded

theorem truthful_iff {eof : Location} {ts : List Token} {folded : Folded}
    (h : Folded.ofTokens sym eof ts = .ok folded) :
    Truthful sym eof ts ↔ ∀ v ∈ folded.values, v.Canonical := by
  constructor
  · exact fun htruthful => htruthful folded h
  · intro hvalues found hfound
    obtain rfl := Except.ok.inj (h.symm.trans hfound)
    exact hvalues

theorem truthful_nil (sym : Symbols) (eof : Location) : Truthful sym eof [] :=
  fun _ h => nomatch h

end Fold

/-! ## Tables -/

/-- The tokens of the initializer whose value a declaration records. -/
def Shape.initializer (rest : List Token) : Shape → List Token
  | var _ => rest.drop 1
  | structVar _ _ | untyped _ _ => rest.drop 2
  | const _ => rest.drop 3
  | structConst _ _ => rest.drop 4
  | struct | memory | proc => []

namespace Symbols

/-- All values in the tables are canonical: the defaults of members, the constants, and the initial
values of variables. -/
structure Canonical (s : Symbols) : Prop where
  members : ∀ d ∈ s.structs, ∀ m ∈ d.members, m.initial.Canonical
  consts : ∀ c ∈ s.consts, c.value.Canonical
  globals : ∀ v ∈ s.globals, v.value.Canonical
  locals : ∀ p ∈ s.procs, ∀ v ∈ p.locals, v.value.Canonical

instance (s : Symbols) : Decidable s.Canonical :=
  decidable_of_iff
    ((∀ d ∈ s.structs, ∀ m ∈ d.members, m.initial.Canonical) ∧
      (∀ c ∈ s.consts, c.value.Canonical) ∧ (∀ v ∈ s.globals, v.value.Canonical) ∧
      ∀ p ∈ s.procs, ∀ v ∈ p.locals, v.value.Canonical)
    ⟨fun h => ⟨h.1, h.2.1, h.2.2.1, h.2.2.2⟩, fun h => ⟨h.members, h.consts, h.globals, h.locals⟩⟩

variable {s : Symbols}

theorem canonical_appendConsts {consts : List Scalar} {structConsts : List Aggregate} :
    ({ s with consts := s.consts ++ consts, structConsts := structConsts } : Symbols).Canonical ↔
      s.Canonical ∧ ∀ c ∈ consts, c.value.Canonical := by
  constructor
  · intro h
    obtain ⟨hold, hnew⟩ := List.forall_mem_append.mp h.consts
    exact ⟨⟨h.members, hold, h.globals, h.locals⟩, hnew⟩
  · rintro ⟨h, hnew⟩
    exact ⟨h.members, List.forall_mem_append.mpr ⟨h.consts, hnew⟩, h.globals, h.locals⟩

theorem canonical_appendGlobals {globals : List Scalar} {globalStructs : List Aggregate} :
    ({ s with globals := s.globals ++ globals, globalStructs := globalStructs } :
        Symbols).Canonical ↔ s.Canonical ∧ ∀ v ∈ globals, v.value.Canonical := by
  constructor
  · intro h
    obtain ⟨hold, hnew⟩ := List.forall_mem_append.mp h.globals
    exact ⟨⟨h.members, h.consts, hold, h.locals⟩, hnew⟩
  · rintro ⟨h, hnew⟩
    exact ⟨h.members, h.consts, List.forall_mem_append.mpr ⟨h.globals, hnew⟩, h.locals⟩

/-- The procedure whose body is being read may get more variables. -/
theorem canonical_modifyProc {id : Nat} {p p' : Procedure} {vars : List Scalar}
    (hp : s.procs[id]? = some p) (hvars : p'.locals = p.locals ++ vars) :
    (s.modifyProc id fun _ => p').Canonical ↔ s.Canonical ∧ ∀ v ∈ vars, v.value.Canonical := by
  constructor
  · intro h
    have hlocals : ∀ (j : Nat) (q : Procedure), (s.procs.modify id fun _ => p')[j]? = some q →
        ∀ v ∈ q.locals, v.value.Canonical := fun j q hq => h.locals q (List.mem_of_getElem? hq)
    have hown := hlocals id p' (by simp [hp])
    rw [hvars] at hown
    obtain ⟨hold, hnew⟩ := List.forall_mem_append.mp hown
    refine ⟨⟨h.members, h.consts, h.globals, fun q hq => ?_⟩, hnew⟩
    obtain ⟨j, hj⟩ := List.getElem?_of_mem hq
    by_cases hsame : id = j
    · subst hsame
      obtain rfl := Option.some.inj (hp.symm.trans hj)
      exact hold
    · exact hlocals j q (by simpa [hsame] using hj)
  · rintro ⟨h, hnew⟩
    have hown := h.locals p (List.mem_of_getElem? hp)
    refine ⟨h.members, h.consts, h.globals, forall_modifyProc h.locals ?_⟩
    exact hvars ▸ List.forall_mem_append.mpr ⟨hown, hnew⟩

end Symbols

/-- The literals that may be the default of a member make canonical defaults. -/
theorem Value.canonical_of_isDefaultOf {kind : TokenKind} {v : Value} {ty : Ty}
    (hv : kind.literal? = some v) (hty : v.isDefaultOf ty) : (⟨v.bits, ty⟩ : Value).Canonical := by
  intro hbool
  obtain rfl : ty = .bool := hbool
  have hsame : v.ty = .bool := by simpa [isDefaultOf, Ty.isStruct] using hty
  have hcanonical := canonical_of_literal? hv
  exact hcanonical hsame

theorem canonical_of_structMembers {sym : Symbols} {name : String} {loc eof : Location}
    {members found : List Member} {count used : Nat} {ts : List Token}
    (hmembers : ∀ m ∈ members, m.initial.Canonical)
    (h : structMembers sym name loc eof members count ts = .ok (found, used)) :
    ∀ m ∈ found, m.initial.Canonical := by
  have hsnoc {members : List Member} (hmembers : ∀ m ∈ members, m.initial.Canonical)
      {m : Member} (hm : m.initial.Canonical) : ∀ m' ∈ members ++ [m], m'.initial.Canonical :=
    List.forall_mem_append.mpr ⟨hmembers, List.forall_mem_singleton.mpr hm⟩
  fun_induction structMembers sym name loc eof members count ts with
  | case2 =>
    cases h
    exact hmembers
  | case6 _ _ _ _ _ _ _ ty _ _ ih | case7 _ _ _ _ _ _ _ ty _ _ _ _ _ ih =>
    exact ih (hsnoc hmembers (Value.canonical_zero ty)) h
  | case8 _ _ _ _ _ _ _ ty _ _ _ v hv _ hty ih =>
    exact ih (hsnoc hmembers (Value.canonical_of_isDefaultOf hv hty)) h
  | case1 | case3 | case4 | case5 | case9 | case10 => cases h

namespace Symbols

variable {sym : Symbols} {d : StructDef} {folded : Folded} {mayElide : Bool} {what : String}
  {loc : Location} {values : List Value}

theorem checkTypes_eq_ok (cells : List (Value × Member)) (h : (cells.mapM fun (v, m) =>
      sym.checkType v m.ty s!"member `{m.name}` of {what}" loc) = .ok values) :
    values = cells.map (·.1) ∧ values.map (·.ty) = cells.map (·.2.ty) := by
  induction cells generalizing values with
  | nil =>
    cases h
    exact ⟨rfl, rfl⟩
  | cons cell cells ih =>
    obtain ⟨value, rest, hvalue, hrest, rfl⟩ := mapM_cons_ok h
    obtain ⟨rfl, hty⟩ := checkType_eq_ok hvalue
    obtain ⟨hvalues, htypes⟩ := ih hrest
    exact ⟨by rw [hvalues, List.map_cons], by rw [List.map_cons, List.map_cons, htypes, hty]⟩

/-- Members get the values of the initializer, which have their types, or the defaults if the
initializer is empty and may be. -/
theorem memberValues_cases (h : sym.memberValues d folded mayElide what loc = .ok values) :
    (folded.values = values ∧ values.map (·.ty) = d.members.map (·.ty)) ∨
      (mayElide = true ∧ folded.values = [] ∧ values = d.members.map (·.initial)) := by
  obtain ⟨found, hfound, h⟩ := bind_eq_ok h
  cases found with
  | none =>
    cases h
    unfold Folded.expect at hfound
    split at hfound
    · rename_i helided
      simp only [Folded.isElided, Bool.and_eq_true, List.isEmpty_iff] at helided
      exact .inr ⟨helided.1, helided.2, rfl⟩
    · obtain ⟨_, _, hnone⟩ := map_eq_ok hfound
      cases hnone
  | some given =>
    obtain ⟨rfl, hlength⟩ := Folded.expect_eq_some hfound
    obtain ⟨hvalues, htypes⟩ := checkTypes_eq_ok (folded.values.zip d.members) h
    rw [List.map_fst_zip hlength.le] at hvalues
    have hsnd := List.map_snd_zip hlength.ge
    refine .inl ⟨hvalues.symm, htypes.trans ?_⟩
    rw [← hsnd, List.map_map, hsnd]
    rfl

/-- The values for the members have their types, and they are those of the initializer or the
defaults. -/
theorem memberValues_eq_ok (hd : ∀ m ∈ d.members, m.initial.ty = m.ty)
    (h : sym.memberValues d folded mayElide what loc = .ok values) :
    values.map (·.ty) = d.members.map (·.ty) ∧
      (values = folded.values ∨ values = d.members.map (·.initial)) := by
  rcases memberValues_cases h with ⟨rfl, htypes⟩ | ⟨_, _, rfl⟩
  · exact ⟨htypes, .inl rfl⟩
  · exact ⟨by simpa using hd, .inr rfl⟩

end Symbols

/-- Scalars for values of the right types hold these values. -/
theorem StructDef.map_value_scalars {d : StructDef} {values : List Value}
    (h : values.map (·.ty) = d.members.map (·.ty)) (owner : String) (loc : Location) :
    (d.scalars owner values loc).map (·.value) = values := by
  unfold scalars
  generalize d.members = members at h
  induction values generalizing members with
  | nil => rfl
  | cons v values ih =>
    cases members with
    | nil => cases h
    | cons m members =>
      obtain ⟨hty, hrest⟩ := List.cons.inj h
      obtain ⟨bits, ty⟩ := v
      obtain rfl : ty = m.ty := hty
      rw [List.zip_cons_cons, List.map_cons, List.map_cons, ih members hrest]

theorem Folded.single_eq_ok_iff {folded : Folded} {what : String} {loc : Location} {v : Value} :
    folded.single what loc = .ok v ↔ folded.values = [v] := by
  unfold Folded.single
  split <;> simp_all

namespace Resolution

def InitializesBy (P : Symbols → List Token → Prop) (eof : Location) (r : Resolution) (t : Token)
    (rest : List Token) : Prop :=
  ∀ text shape, t.kind = .word text → r.lookup text t.loc = .ok none →
    Shape.classify r.symbols text t.loc eof rest = .ok shape →
      P r.symbols (shape.initializer rest)

/-- The points that a resolution passes while the initializers of all declarations have a property.
-/
inductive ReachesWhile (P : Symbols → List Token → Prop) (eof : Location) (start : Resolution)
    (ts : List Token) : Resolution → List Token → Prop
  | start : ReachesWhile P eof start ts start ts
  | step {r r' : Resolution} {t : Token} {rest : List Token} {used : Nat}
      (h : ReachesWhile P eof start ts r (t :: rest)) (hinit : InitializesBy P eof r t rest)
      (hstep : r.step eof t rest = .ok (r', used)) :
      ReachesWhile P eof start ts r' (rest.drop used)

variable {r r' : Resolution} {eof loc : Location} {t : Token} {ts rest : List Token} {used : Nat}
  {name : String}

/-- A variable holds the value that its initializer leaves, or zero. -/
theorem canonical_initialValue_iff {folded : Folded} {ty : Ty} {what : String} {value : Value}
    (h : r.initialValue loc folded ty what = .ok value) :
    (⟨value.bits, ty⟩ : Value).Canonical ↔ ∀ v ∈ folded.values, v.Canonical := by
  unfold initialValue at h
  split at h
  · rename_i helided
    cases h
    have hnone : folded.values = [] := by simpa [Folded.isElided] using helided
    rw [hnone]
    exact ⟨fun _ => by simp, fun _ => Value.canonical_zero ty⟩
  · obtain ⟨v, hv, h⟩ := bind_eq_ok h
    obtain ⟨rfl, rfl⟩ := Symbols.checkType_eq_ok h
    rw [Folded.single_eq_ok_iff.mp hv]
    exact List.forall_mem_singleton.symm

/-- The scalars for the members of a struct hold the values of an initializer or defaults. -/
theorem canonical_scalars_iff (hr : r.symbols.Canonical) (hcoherent : r.symbols.Coherent)
    {id skip : Nat} {d : StructDef} {mayElide : Bool} {what : String} {values : List Value}
    (hd : r.symbols.structs[id]? = some d)
    (h : r.FoldsMembers eof rest skip d mayElide what loc values) :
    (∀ v ∈ d.scalars name values loc, v.value.Canonical) ↔
      Fold.Truthful r.symbols eof (rest.drop skip) := by
  obtain ⟨folded, hfolded, hvalues⟩ := h
  have hdefaults := hr.members d (List.mem_of_getElem? hd)
  obtain ⟨htypes, _⟩ := Symbols.memberValues_eq_ok (hcoherent.structs id d hd).defaults hvalues
  rw [Fold.truthful_iff hfolded, ← List.forall_mem_map (f := Scalar.value) (P := Value.Canonical),
    StructDef.map_value_scalars htypes]
  rcases Symbols.memberValues_cases hvalues with ⟨hgiven, _⟩ | ⟨_, hnone, rfl⟩
  · rw [hgiven]
  · rw [hnone]
    exact ⟨fun _ => by simp, fun _ => List.forall_mem_map.mpr hdefaults⟩

theorem canonical_addVar (v : Scalar) :
    (r.addVar v).2.symbols.Canonical ↔ r.symbols.Canonical ∧ v.value.Canonical := by
  rw [← List.forall_mem_singleton (p := fun w : Scalar => w.value.Canonical)]
  unfold addVar
  split
  · rename_i hproc
    exact Symbols.canonical_modifyProc (procedure?_eq_some.mp hproc).2 rfl
  · exact Symbols.canonical_appendGlobals

theorem canonical_setProcedure {pid : Nat} {p p' : Procedure}
    (hproc : r.procedure? = some (pid, p)) (hlocals : p'.locals = p.locals) :
    (r.setProcedure pid p').symbols.Canonical ↔ r.symbols.Canonical := by
  have hvars : p'.locals = p.locals ++ [] := by rw [hlocals, List.append_nil]
  simpa [setProcedure] using Symbols.canonical_modifyProc (procedure?_eq_some.mp hproc).2 hvars

theorem canonical_addMemory? {size : Nat} (h : r.addMemory? name size loc = some r') :
    r'.symbols.Canonical ↔ r.symbols.Canonical := by
  unfold addMemory? at h
  split at h
  · rename_i hproc
    simp only [Procedure.addMemory?_eq, Option.map_map, Option.map_eq_some_iff] at h
    obtain ⟨m, _, rfl⟩ := h
    exact canonical_setProcedure hproc rfl
  · simp only [Symbols.addMemory?, Option.map_map, Option.map_eq_some_iff] at h
    obtain ⟨m, _, rfl⟩ := h
    exact ⟨fun h => ⟨h.members, h.consts, h.globals, h.locals⟩,
      fun h => ⟨h.members, h.consts, h.globals, h.locals⟩⟩

theorem canonical_addStruct {d : StructDef} (hd : ∀ m ∈ d.members, m.initial.Canonical) :
    (r.symbols.addStruct d).2.Canonical ↔ r.symbols.Canonical := by
  constructor
  · intro h
    exact ⟨(List.forall_mem_append.mp h.members).1, h.consts, h.globals, h.locals⟩
  · intro h
    refine ⟨List.forall_mem_append.mpr ⟨h.members, ?_⟩, h.consts, h.globals, h.locals⟩
    exact List.forall_mem_singleton.mpr hd

/-- A declaration records what its initializer leaves. -/
theorem canonical_declareShape (hcoherent : r.symbols.Coherent) {shape : Shape}
    (hshape : Shape.classify r.symbols name loc eof rest = .ok shape)
    (hdeclared : shape.Declared r.symbols) (hproc : shape ≠ .proc)
    (h : r.declareShape eof name loc rest shape = .ok (r', used)) :
    r'.symbols.Canonical ↔
      r.symbols.Canonical ∧ Fold.Truthful r.symbols eof (shape.initializer rest) := by
  have hnil := Fold.truthful_nil r.symbols eof
  cases shape with
  | struct =>
    obtain ⟨_, members, hmembers, _, rfl⟩ := declareStruct_eq h
    rw [canonical_addStruct (canonical_of_structMembers (by simp) hmembers)]
    exact (and_iff_left hnil).symm
  | var ty =>
    obtain ⟨folded, value, hfolded, hvalue, rfl, _⟩ := declareVar_eq_ok h
    rw [canonical_addVar, canonical_initialValue_iff hvalue]
    exact and_congr_right' (Fold.truthful_iff hfolded).symm
  | const ty =>
    obtain ⟨folded, value, hfolded, hvalue, _, rfl, _⟩ := declareConst_eq_ok h
    rw [addConsts_eq, Symbols.canonical_appendConsts]
    refine and_congr_right' (Iff.trans ?_ (Fold.truthful_iff hfolded).symm)
    rw [Folded.single_eq_ok_iff.mp hvalue]
    simp
  | structVar id d =>
    cases hp : r.procedure? with
    | none =>
      obtain ⟨values, hvalues, rfl⟩ := declareStructVar_eq_globals hp h
      rw [Symbols.canonical_appendGlobals]
      exact and_congr_right fun hr => canonical_scalars_iff hr hcoherent hdeclared hvalues
    | some found =>
      obtain ⟨values, hvalues, rfl⟩ := declareStructVar_eq_locals hp h
      rw [setProcedure, Symbols.canonical_modifyProc (procedure?_eq_some.mp hp).2 rfl]
      exact and_congr_right fun hr => canonical_scalars_iff hr hcoherent hdeclared hvalues
  | structConst id d =>
    obtain ⟨values, hvalues, rfl⟩ := declareStructConst_eq h
    rw [Symbols.canonical_appendConsts]
    exact and_congr_right fun hr => canonical_scalars_iff hr hcoherent hdeclared hvalues
  | memory =>
    obtain ⟨size, hmemory⟩ := addMemory?_of_declareMemory h
    rw [canonical_addMemory? hmemory]
    exact (and_iff_left hnil).symm
  | untyped value consumed =>
    cases h
    obtain ⟨_, hcolons⟩ := Shape.eq_ofColons_of_classify hshape rfl
    have hfolded := Shape.ofTokens_of_ofColons hcolons.symm
    rw [addConsts_eq, Symbols.canonical_appendConsts]
    refine and_congr_right' (Iff.trans ?_ (Fold.truthful_iff hfolded).symm)
    simp
  | proc => exact absurd rfl hproc

theorem Move.canonical_iff (h : Move eof r t rest r' used) (hsound : Sound r)
    (hcoherent : r.symbols.Coherent) :
    r'.symbols.Canonical ↔ r.symbols.Canonical ∧
      InitializesBy (Fold.Truthful · eof) eof r t rest := by
  have hkept (hnone : ∀ text, t.kind = .word text → r.lookup text t.loc ≠ .ok none) :
      r.symbols.Canonical ↔ r.symbols.Canonical ∧
        InitializesBy (Fold.Truthful · eof) eof r t rest :=
    (and_iff_left fun text _ ht hm => absurd hm (hnone text ht)).symm
  cases h with
  | word ht hm =>
    refine hkept fun text ht' hnone => ?_
    cases ht.symm.trans ht'
    cases hm.symm.trans hnone
  | literal ht | string ht | openIf ht | openElse ht | closeIf ht | closeElse ht | closeProc ht =>
    exact hkept fun text ht' => by simp [ht', TokenKind.literal?] at ht
  | openLet ht hp | closeLet ht _ _ hp =>
    refine Iff.trans (canonical_setProcedure hp ?_) (hkept fun text ht' => ?_)
    · rfl
    · simp [ht'] at ht
  | @declare text shape _ _ ht hm _ hshape hproc hdeclare =>
    rw [canonical_declareShape hcoherent hshape (Shape.declared_of_classify hsound.tables hshape)
      hproc hdeclare]
    refine and_congr_right' ⟨fun htruthful text' shape' ht' _ hshape' => ?_, fun h => ?_⟩
    · cases ht.symm.trans ht'
      cases hshape.symm.trans hshape'
      exact htruthful
    · exact h text shape ht hm hshape
  | @declareProc text _ _ ht hm _ hshape hdeclare =>
    obtain ⟨_, p, _, _, hblank, _, _, rfl⟩ := declareProc_eq_ok hdeclare
    have hinit : InitializesBy (Fold.Truthful · eof) eof r t rest := by
      intro text' shape' ht' _ hshape'
      cases ht.symm.trans ht'
      cases hshape.symm.trans hshape'
      exact Fold.truthful_nil _ _
    rw [and_iff_left hinit]
    constructor
    · intro h
      exact ⟨h.members, h.consts, h.globals, (List.forall_mem_append.mp h.locals).1⟩
    · intro h
      refine ⟨h.members, h.consts, h.globals, List.forall_mem_append.mpr ⟨h.locals, ?_⟩⟩
      simp [hblank.locals]

theorem canonical_start : ({} : Resolution).symbols.Canonical :=
  ⟨by simp, by simp, by simp, by simp⟩

theorem ReachesWhile.reaches {P : Symbols → List Token → Prop} {start : Resolution}
    (h : ReachesWhile P eof start ts r rest) : Reaches eof start ts r rest := by
  induction h with
  | start => exact .start
  | step _ _ hstep ih => exact .step ih hstep

/-- The tables are canonical exactly if all initializers on the way have left canonical values. -/
theorem Reaches.canonical_iff (h : Reaches eof {} ts r rest) :
    r.symbols.Canonical ↔ ReachesWhile (Fold.Truthful · eof) eof {} ts r rest := by
  constructor
  · intro hr
    induction h with
    | start => exact .start
    | step h hstep ih =>
      have hbefore := (step_move hstep).canonical_iff (h.sound .empty) (h.coherent .empty .empty)
      obtain ⟨hold, hinit⟩ := hbefore.mp hr
      exact .step (ih hold) hinit hstep
  · intro htruthful
    induction htruthful with
    | start => exact canonical_start
    | step htruthful hinit hstep ih =>
      have hreaches := htruthful.reaches
      exact ((step_move hstep).canonical_iff (hreaches.sound .empty)
        (hreaches.coherent .empty .empty)).mpr ⟨ih hreaches, hinit⟩

/-- An initializer that forges nothing leaves canonical values, as long as all others did. -/
theorem ReachesWhile.canonical
    (h : ReachesWhile (fun sym => Fold.Honest sym []) eof {} ts r rest) :
    r.symbols.Canonical := by
  induction h with
  | start => exact canonical_start
  | step h hinit hstep ih =>
    have hreaches := h.reaches
    refine ((step_move hstep).canonical_iff (hreaches.sound .empty)
      (hreaches.coherent .empty .empty)).mpr ⟨ih, fun text shape ht hm hshape => ?_⟩
    exact (hinit text shape ht hm hshape).truthful ih.consts

end Resolution

end StackEffect
