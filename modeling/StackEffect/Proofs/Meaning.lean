import Mathlib.Tactic.Tauto
import StackEffect.Proofs.Declarations
import StackEffect.Proofs.Effect
import StackEffect.Resolution.Meaning

/-! # What words stand for

A word that is found stands for an entry of the tables that it names, for a bound name, or for an
operation that is spelled out. The operations neither open nor close blocks, and whatever they refer
to is there: procedures, variables, the structs that their types name, and the names bound where the
word stands.
-/

namespace StackEffect

/-- What an operation refers to is in the tables. -/
def OpKind.Valid (sym : Symbols) : OpKind → Prop
  | cast ty | loadVar _ ty | varAddr _ ty => ty.Declared sym.structs.length
  | call id | procBegin id | procEnd id _ => id < sym.procs.length
  | storeVar ref _ => (sym.var? ref).isSome
  | _ => True

theorem OpKind.Valid.grow {s t : Symbols} {kind : OpKind} (h : kind.Valid s) (hgrows : s.Grows t) :
    kind.Valid t := by
  cases kind with
  | cast | loadVar | varAddr => exact Ty.Declared.mono h hgrows.structs
  | call | procBegin | procEnd => exact Nat.lt_of_lt_of_le h hgrows.procs
  | storeVar ref ty => exact hgrows.vars ref h
  | pushInt | pushBool | pushPtr | pushStr | intrinsic | pushMem | pushBinding | member | ifBegin
  | ifElse | ifEnd | elseEnd | bind | unbind => trivial

/-- An operation that a word may stand for where `bound` names are bound. -/
structure OpKind.Usable (sym : Symbols) (bound : Nat) (kind : OpKind) : Prop where
  plain : kind.isPlain
  valid : kind.Valid sym
  depth : ∀ d, kind = .pushBinding d → d < bound

def Meaning.Usable (sym : Symbols) (bound : Nat) (m : Meaning) : Prop :=
  ∀ kind ∈ m.ops, kind.Usable sym bound

/-- A value is pushed as a literal of its type, and then cast if it is a reference to a struct. -/
theorem Value.mem_pushes {v : Value} {kind : OpKind} (h : kind ∈ v.pushes) :
    kind = .pushInt v.bits ∨ kind = .pushBool (v.bits != 0) ∨ kind = .pushPtr v.bits ∨
      kind = .cast v.ty := by
  unfold pushes at h
  split at h <;> simp only [List.mem_cons, List.not_mem_nil, or_false] at h <;> tauto

theorem Value.usable_of_pushes {sym : Symbols} {v : Value}
    (hv : v.ty.Declared sym.structs.length) (bound : Nat) :
    ∀ kind ∈ v.pushes, kind.Usable sym bound := by
  intro kind hkind
  rcases mem_pushes hkind with rfl | rfl | rfl | rfl
  · exact ⟨rfl, trivial, nofun⟩
  · exact ⟨rfl, trivial, nofun⟩
  · exact ⟨rfl, trivial, nofun⟩
  · exact ⟨rfl, hv, nofun⟩

namespace Access

variable {sym : Symbols} {ref : Ref} {scope : Scope} {v : Aggregate} {members : List Member}

theorem usable_of_scalarOp {ty : Ty} (access : Access) (href : (sym.var? ref).isSome)
    (hty : ty.Declared sym.structs.length) (bound : Nat) :
    (access.scalarOp ref ty).Usable sym bound := by
  cases access with
  | load => exact ⟨rfl, hty, nofun⟩
  | store => exact ⟨rfl, href, nofun⟩
  | addr => exact ⟨rfl, trivial, nofun⟩

theorem usable_of_structOps (access : Access) (hstruct : v.struct < sym.structs.length)
    (hslots : ∀ i ∈ v.members, (sym.var? ⟨scope, i⟩).isSome)
    (hmembers : ∀ m ∈ members, m.ty.Declared sym.structs.length) (bound : Nat) :
    ∀ kind ∈ access.structOps scope v members, kind.Usable sym bound := by
  intro kind hkind
  cases access with
  | load =>
    obtain ⟨⟨i, m⟩, hmem, rfl⟩ := List.mem_map.mp hkind
    exact ⟨rfl, hmembers m (List.of_mem_zip hmem).2, nofun⟩
  | store =>
    obtain ⟨⟨i, m⟩, hmem, rfl⟩ := List.mem_map.mp hkind
    exact ⟨rfl, hslots i (List.of_mem_zip (List.mem_reverse.mp hmem)).1, nofun⟩
  | addr =>
    obtain ⟨i, _, rfl⟩ := List.mem_map.mp hkind
    exact ⟨rfl, hstruct, nofun⟩

end Access

theorem Symbols.WellFormed.members {sym : Symbols} (h : sym.WellFormed) (id : Nat) :
    ∀ m ∈ sym.members id, m.ty.Declared sym.structs.length := by
  cases hd : sym.structs[id]? with
  | none => simp [Symbols.members, hd]
  | some d =>
    simp only [Symbols.members, hd, Option.elim_some]
    exact h.structs d (List.mem_of_getElem? hd)

namespace Resolution

def names (r : Resolution) : Nat :=
  r.procedure?.elim 0 (·.2.bindings.length)

variable {r : Resolution} {text : String} {m : Meaning}

/-- The scopes that words can refer to: that of the globals, and the frame of the procedure whose
body is being read. -/
def Sees (r : Resolution) (scope : Scope) : Prop :=
  ∀ id, scope = .frame id → r.current = some id

theorem sees_global : r.Sees .global :=
  fun _ h => nomatch h

theorem sees_frame {id : Nat} (h : r.current = some id) : r.Sees (.frame id) := by
  rintro _ ⟨⟩
  exact h

/-- Outside of procedures only the globals are seen. -/
theorem Sees.eq_global {scope : Scope} (h : r.Sees scope) (hc : r.current = none) :
    scope = .global := by
  cases scope with
  | global => rfl
  | frame id => simp [h id rfl] at hc

/-- What a word may stand for, by the entries of the tables that it names. -/
inductive Means (r : Resolution) (text : String) : Meaning → Prop
  | structConst {i : Nat} {c : Aggregate}
      (hc : r.symbols.findStructConst? text = some (i, c)) :
      Means r text ⟨(r.symbols.constValues c).flatMap Value.pushes, some c.loc⟩
  | member {access : MemberAccess} {name : String}
      (hword : memberWord? text = some (access, name)) :
      Means r text { ops := [.member access name none] }
  | binding {id depth : Nat} {p : Procedure} (hproc : r.procedure? = some (id, p))
      (hdepth : p.bindingDepth? text = some depth) :
      Means r text { ops := [.pushBinding depth] }
  | primitive {i : Intrinsic} (hi : Intrinsic.ofName? text = some i) :
      Means r text { ops := [.intrinsic i] }
  | cast {target : String} {ty : Ty} (hty : r.symbols.castTarget? target = some ty) :
      Means r text { ops := [.cast ty] }
  | region {scope : Scope} {i : Nat} {region : Region} (hscope : r.Sees scope)
      (hregion : (r.symbols.regions scope)[i]? = some region) (hname : region.name = text) :
      Means r text ⟨[.pushMem ⟨scope, i⟩], some region.loc⟩
  | call {id : Nat} {p : Procedure} (hp : r.symbols.findProc? text = some (id, p)) :
      Means r text ⟨[.call id], some p.loc⟩
  | const {i : Nat} {c : Scalar} (hc : r.symbols.findConst? text = some (i, c)) :
      Means r text ⟨c.value.pushes, some c.loc⟩
  | structVar {scope : Scope} {v : Aggregate} (hscope : r.Sees scope)
      (hv : v ∈ r.symbols.structVars scope) (hname : v.name = (Access.ofWord text).2) :
      Means r text
        ⟨(Access.ofWord text).1.structOps scope v (r.symbols.members v.struct), some v.loc⟩
  | var {scope : Scope} {i : Nat} {v : Scalar} (hscope : r.Sees scope)
      (hv : (r.symbols.vars scope)[i]? = some v) (hname : v.name = (Access.ofWord text).2) :
      Means r text ⟨[(Access.ofWord text).1.scalarOp ⟨scope, i⟩ v.value.ty], some v.loc⟩

theorem means_of_region? (hm : r.region? text = some m) : r.Means text m := by
  rcases Option.or_eq_some_iff.mp hm with hm | ⟨_, hm⟩
  · obtain ⟨⟨id, p⟩, hproc, hm⟩ := Option.bind_eq_some_iff.mp hm
    obtain ⟨⟨i, region⟩, hfound, rfl⟩ := Option.map_eq_some_iff.mp hm
    obtain ⟨hid, hp⟩ := procedure?_eq_some.mp hproc
    refine .region (sees_frame hid) ?_ (Named.name_of_first? hfound)
    simpa [Symbols.regions, hp] using Named.getElem?_of_first? hfound
  · obtain ⟨⟨i, region⟩, hfound, rfl⟩ := Option.map_eq_some_iff.mp hm
    exact .region sees_global (Named.getElem?_of_last? hfound) (Named.name_of_last? hfound)

theorem means_of_localVar?
    (hm : r.localVar? (Access.ofWord text).1 (Access.ofWord text).2 = some m) :
    r.Means text m := by
  obtain ⟨⟨id, p⟩, hproc, hm⟩ := Option.bind_eq_some_iff.mp hm
  obtain ⟨hid, hp⟩ := procedure?_eq_some.mp hproc
  rcases Option.or_eq_some_iff.mp hm with hm | ⟨_, hm⟩
  · obtain ⟨⟨i, v⟩, hfound, rfl⟩ := Option.map_eq_some_iff.mp hm
    refine .structVar (sees_frame hid) ?_ (Named.name_of_first? hfound)
    simpa [Symbols.structVars, hp] using List.mem_of_getElem? (Named.getElem?_of_first? hfound)
  · obtain ⟨⟨i, v⟩, hfound, rfl⟩ := Option.map_eq_some_iff.mp hm
    refine .var (sees_frame hid) ?_ (Named.name_of_first? hfound)
    simpa [Symbols.vars, hp] using Named.getElem?_of_first? hfound

theorem means_of_globalVar?
    (hm : r.globalVar? (Access.ofWord text).1 (Access.ofWord text).2 = some m) :
    r.Means text m := by
  rcases Option.or_eq_some_iff.mp hm with hm | ⟨_, hm⟩
  · obtain ⟨⟨i, v⟩, hfound, rfl⟩ := Option.map_eq_some_iff.mp hm
    exact .structVar sees_global (List.mem_of_getElem? (Named.getElem?_of_last? hfound))
      (Named.name_of_last? hfound)
  · obtain ⟨⟨i, v⟩, hfound, rfl⟩ := Option.map_eq_some_iff.mp hm
    exact .var sees_global (Named.getElem?_of_last? hfound) (Named.name_of_last? hfound)

/-- A word that is found means what one of its entries gives. -/
theorem means_of_lookup {loc : Location} (hm : r.lookup text loc = .ok (some m)) :
    r.Means text m := by
  unfold lookup at hm
  split at hm
  · rename_i found hfound
    cases hm
    simp only [Option.or_eq_some_iff] at hfound
    rcases hfound with hm | ⟨_, hm | ⟨_, hm | ⟨_, hm⟩⟩⟩
    · obtain ⟨⟨i, c⟩, hc, rfl⟩ := Option.map_eq_some_iff.mp hm
      exact .structConst hc
    · obtain ⟨⟨access, name⟩, hword, rfl⟩ := Option.map_eq_some_iff.mp hm
      exact .member hword
    · obtain ⟨⟨id, p⟩, hproc, hm⟩ := Option.bind_eq_some_iff.mp hm
      obtain ⟨depth, hdepth, rfl⟩ := Option.map_eq_some_iff.mp hm
      exact .binding hproc hdepth
    · obtain ⟨i, hi, rfl⟩ := Option.map_eq_some_iff.mp hm
      exact .primitive hi
  · split at hm
    · split at hm
      · rename_i ty hty
        cases hm
        exact .cast hty
      · cases hm
    · have hfound := Except.ok.inj hm
      simp only [namedVar?, Option.or_eq_some_iff] at hfound
      rcases hfound with hm | ⟨_, hm | ⟨_, hm | ⟨_, hm | ⟨_, hm⟩⟩⟩⟩
      · exact means_of_region? hm
      · obtain ⟨⟨id, p⟩, hp, rfl⟩ := Option.map_eq_some_iff.mp hm
        exact .call hp
      · obtain ⟨⟨i, c⟩, hc, rfl⟩ := Option.map_eq_some_iff.mp hm
        exact .const hc
      · exact means_of_localVar? hm
      · exact means_of_globalVar? hm

/-- A word without a meaning is found in none of the places. -/
theorem lookup_eq_none {loc : Location} (hnone : r.lookup text loc = .ok none) :
    (r.structConst? text = none ∧ memberAccess? text = none ∧ r.binding? text = none ∧
      primitive? text = none) ∧
    stripSigil? '#' text = none ∧ r.region? text = none ∧ r.call? text = none ∧
    r.const? text = none ∧ r.namedVar? text = none := by
  unfold lookup at hnone
  split at hnone
  · cases hnone
  · rename_i hearly
    split at hnone
    · split at hnone <;> cases hnone
    · rename_i hsigil
      simp only [Except.ok.injEq, Option.or_eq_none_iff] at hearly hnone
      exact ⟨hearly, hsigil, hnone⟩

/-- A word is a bound name, or what it means may be used whichever names are bound. -/
theorem Means.binding_or_usable (h : r.symbols.WellFormed) (hm : r.Means text m) :
    (∃ id p depth, r.procedure? = some (id, p) ∧ p.bindingDepth? text = some depth ∧
      m = { ops := [.pushBinding depth] }) ∨
    ∀ bound, m.Usable r.symbols bound := by
  cases hm with
  | @structConst i c =>
    refine .inr fun bound kind hkind => ?_
    obtain ⟨v, hv, hkind⟩ := List.mem_flatMap.mp hkind
    exact v.usable_of_pushes (Fold.declared_of_constValues h c v hv) bound kind hkind
  | binding hproc hdepth => exact .inl ⟨_, _, _, hproc, hdepth, rfl⟩
  | member | primitive | region =>
    exact .inr fun bound => List.forall_mem_singleton.mpr ⟨rfl, trivial, nofun⟩
  | cast hty =>
    exact .inr fun bound =>
      List.forall_mem_singleton.mpr ⟨rfl, declared_of_castTarget? hty, nofun⟩
  | call hp =>
    have hid := (List.getElem?_eq_some_iff.mp (Named.getElem?_of_last? hp)).1
    exact .inr fun bound => List.forall_mem_singleton.mpr ⟨rfl, hid, nofun⟩
  | @const i c hc =>
    have hmem := List.mem_of_getElem? (Named.getElem?_of_last? hc)
    exact .inr (c.value.usable_of_pushes (h.consts c hmem))
  | @structVar scope v hscope hv =>
    have hrange := h.structVars scope v hv
    refine .inr (Access.usable_of_structOps _ hrange.struct (fun i hi => ?_) (h.members v.struct))
    simpa [Symbols.var?_eq] using hrange.members i hi
  | @var scope i v hscope hv =>
    refine .inr fun bound => List.forall_mem_singleton.mpr ?_
    refine Access.usable_of_scalarOp _ ?_ (h.vars scope v (List.mem_of_getElem? hv)) bound
    simp [Symbols.var?_eq, hv]

theorem usable_of_bindingDepth? {id depth : Nat} {p : Procedure}
    (hproc : r.procedure? = some (id, p)) (hdepth : p.bindingDepth? text = some depth) :
    (OpKind.pushBinding depth).Usable r.symbols r.names := by
  refine ⟨rfl, trivial, ?_⟩
  rintro _ ⟨rfl⟩
  have hlt : depth < p.bindings.reverse.length := (List.findIdx?_eq_some_iff_findIdx_eq.mp hdepth).1
  rw [List.length_reverse] at hlt
  rwa [names, hproc]

/-- Whatever a word means may be used where the word stands. -/
theorem usable_of_lookup (h : r.symbols.WellFormed) {loc : Location}
    (hm : r.lookup text loc = .ok (some m)) : m.Usable r.symbols r.names := by
  rcases (means_of_lookup hm).binding_or_usable h with
    ⟨id, p, depth, hproc, hdepth, rfl⟩ | husable
  · exact List.forall_mem_singleton.mpr (usable_of_bindingDepth? hproc hdepth)
  · exact husable r.names

end Resolution

end StackEffect
