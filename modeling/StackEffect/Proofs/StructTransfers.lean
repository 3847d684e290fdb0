import Mathlib.Data.List.Nodup
import Mathlib.Logic.Function.Basic
import StackEffect.Proofs.Folding
import StackEffect.Proofs.VariableWords

/-! # Whole structs on the stack

The word for a struct variable loads the values of all its members, and the word for a store to it
takes them again, the last one first. So a store and a load behind it put the values of the stack
into the slots and leave them where they were; and what a struct variable or constant has pushed is
taken by a store to a variable of the same struct. Both hold for the values, which are followed here
through operations on slots, and for their types in the checker.
-/

namespace StackEffect

/-- What variables hold, and the values on the stack, top first. -/
structure Store where
  slots : Ref → Value
  stack : List Value

namespace Store

/-- Performs an operation that pushes, casts, loads or stores. No other has an effect here. -/
def perform? (σ : Store) : OpKind → Option Store
  | .pushInt n => some { σ with stack := .int n :: σ.stack }
  | .pushBool b => some { σ with stack := .bool b :: σ.stack }
  | .pushPtr n => some { σ with stack := .ptr n :: σ.stack }
  | .cast ty =>
    match σ.stack with
    | v :: rest => some { σ with stack := ⟨v.bits, ty⟩ :: rest }
    | [] => none
  | .loadVar ref _ => some { σ with stack := σ.slots ref :: σ.stack }
  | .storeVar ref _ =>
    match σ.stack with
    | v :: rest => some ⟨Function.update σ.slots ref v, rest⟩
    | [] => none
  | _ => none

def run? (σ : Store) (kinds : List OpKind) : Option Store :=
  kinds.foldlM perform? σ

theorem run?_append (σ : Store) (as bs : List OpKind) :
    σ.run? (as ++ bs) = (σ.run? as).bind (·.run? bs) :=
  List.foldlM_append

theorem run?_cons (σ : Store) (kind : OpKind) (kinds : List OpKind) :
    σ.run? (kind :: kinds) = (σ.perform? kind).bind (·.run? kinds) :=
  List.foldlM_cons

end Store

/-- The value that the operations of a literal push. -/
def Value.literal (v : Value) : Value :=
  match v.ty with
  | .bool => .bool (v.bits != 0)
  | _ => v

/-- The slots of a struct variable have taken these values, the first member the first of them, and
all other slots are unchanged. -/
structure Aggregate.Takes (v : Aggregate) (scope : Scope) (values : List Value)
    (slots slots' : Ref → Value) : Prop where
  taken : ∀ i slot : Nat, v.members[i]? = some slot → values[i]? = some (slots' ⟨scope, slot⟩)
  others : ∀ ref, (∀ slot ∈ v.members, ref ≠ ⟨scope, slot⟩) → slots' ref = slots ref

/-! ## Values -/

def written (scope : Scope) (slots : Ref → Value) (cells : List (Nat × Value)) : Ref → Value :=
  cells.foldl (fun slots cell => Function.update slots ⟨scope, cell.1⟩ cell.2) slots

section Written

variable {scope : Scope} {slots : Ref → Value} {cells : List (Nat × Value)}

theorem written_of_ne {ref : Ref} (h : ∀ cell ∈ cells, ref ≠ ⟨scope, cell.1⟩) :
    written scope slots cells ref = slots ref := by
  induction cells generalizing slots with
  | nil => rfl
  | cons cell cells ih =>
    obtain ⟨hcell, hcells⟩ := List.forall_mem_cons.mp h
    change written scope (Function.update slots ⟨scope, cell.1⟩ cell.2) cells ref = _
    rw [ih hcells, Function.update_of_ne hcell]

/-- A cell that is written once holds what was written to it. -/
theorem written_of_mem (hnodup : (cells.map (·.1)).Nodup) {cell : Nat × Value}
    (hcell : cell ∈ cells) : written scope slots cells ⟨scope, cell.1⟩ = cell.2 := by
  induction cells generalizing slots with
  | nil => cases hcell
  | cons first cells ih =>
    obtain ⟨hfirst, hnodup⟩ := List.nodup_cons.mp hnodup
    change written scope (Function.update slots ⟨scope, first.1⟩ first.2) cells _ = _
    rcases List.mem_cons.mp hcell with rfl | hcell
    · rw [written_of_ne, Function.update_self]
      intro other hother heq
      exact hfirst (List.mem_map.mpr ⟨other, hother, (Ref.mk.inj heq).2.symm⟩)
    · exact ih hnodup hcell

end Written

namespace Store

variable (scope : Scope) (slots : Ref → Value) (stack : List Value)

/-- Loads push what the slots hold, the first slot first. -/
theorem run?_loads (cells : List (Nat × Member)) :
    run? ⟨slots, stack⟩ (cells.map fun cell => .loadVar ⟨scope, cell.1⟩ cell.2.ty) =
      some ⟨slots, (cells.map fun cell => slots ⟨scope, cell.1⟩).reverse ++ stack⟩ := by
  induction cells generalizing stack with
  | nil => rfl
  | cons cell cells ih =>
    rw [List.map_cons, run?_cons]
    simp only [perform?, Option.bind_some]
    rw [ih, List.map_cons, List.reverse_cons, List.append_assoc, List.singleton_append]

/-- Stores take the values of the stack, the first slot the one on top. -/
theorem run?_stores (cells : List (Nat × Member)) {values : List Value}
    (hlength : cells.length = values.length) :
    run? ⟨slots, values ++ stack⟩ (cells.map fun cell => .storeVar ⟨scope, cell.1⟩ cell.2.ty) =
      some ⟨written scope slots ((cells.map (·.1)).zip values), stack⟩ := by
  induction cells generalizing slots values with
  | nil =>
    obtain rfl : values = [] := List.eq_nil_of_length_eq_zero hlength.symm
    rfl
  | cons cell cells ih =>
    cases values with
    | nil => cases hlength
    | cons value values =>
      rw [List.map_cons, run?_cons]
      simp only [perform?, List.cons_append, Option.bind_some]
      exact ih _ (Nat.succ.inj hlength)

/-- The operations of a value push the value as a literal would. -/
theorem run?_pushes {v : Value} (hv : v.ty ≠ .any) :
    run? ⟨slots, stack⟩ v.pushes = some ⟨slots, v.literal :: stack⟩ := by
  obtain ⟨bits, ty⟩ := v
  cases ty with
  | any => exact absurd rfl hv
  | int | bool | ptr | struct => rfl

theorem run?_pushAll {values : List Value} (hvalues : ∀ v ∈ values, v.ty ≠ .any) :
    run? ⟨slots, stack⟩ (values.flatMap Value.pushes) =
      some ⟨slots, (values.map Value.literal).reverse ++ stack⟩ := by
  induction values generalizing stack with
  | nil => rfl
  | cons v values ih =>
    obtain ⟨hv, hvalues⟩ := List.forall_mem_cons.mp hvalues
    rw [List.flatMap_cons, run?_append, run?_pushes slots stack hv, Option.bind_some, ih _ hvalues]
    simp

end Store

section Zip

variable {α β γ : Type} {as : List α} {bs : List β} (h : as.length = bs.length)

include h

theorem zip_reverse : as.reverse.zip bs.reverse = (as.zip bs).reverse := by
  rw [← List.zip_unzip (as.zip bs).reverse]
  simp [List.unzip_eq_map, List.map_reverse, List.map_fst_zip, List.map_snd_zip, h]

theorem map_zip_fst (f : α → γ) : (as.zip bs).map (fun p => f p.1) = as.map f := by
  conv_rhs => rw [← List.map_fst_zip (Nat.le_of_eq h), List.map_map]
  rfl

theorem map_zip_snd (f : β → γ) : (as.zip bs).map (fun p => f p.2) = bs.map f := by
  conv_rhs => rw [← List.map_snd_zip (Nat.le_of_eq h.symm), List.map_map]
  rfl

end Zip

namespace Aggregate

variable {v : Aggregate} {members : List Member} (hlength : v.members.length = members.length)
  (scope : Scope) (slots : Ref → Value) (stack : List Value)

include hlength

/-- A load pushes what the slots hold. -/
theorem run?_load : Store.run? ⟨slots, stack⟩ (Access.load.structOps scope v members) =
    some ⟨slots, (v.members.map fun slot => slots ⟨scope, slot⟩).reverse ++ stack⟩ := by
  rw [← map_zip_fst hlength fun slot => slots ⟨scope, slot⟩]
  exact Store.run?_loads scope slots stack _

/-- A store puts the values into the slots. -/
theorem run?_store (hnodup : v.members.Nodup) {values : List Value}
    (hvalues : values.length = members.length) :
    ∃ slots', Store.run? ⟨slots, values.reverse ++ stack⟩ (Access.store.structOps scope v members) =
      some ⟨slots', stack⟩ ∧ v.Takes scope values slots slots' := by
  have hcells : (v.members.zip members).reverse.length = values.reverse.length := by
    simp [hlength, hvalues]
  have hfst : (v.members.zip members).reverse.map (·.1) = v.members.reverse := by
    rw [List.map_reverse, List.map_fst_zip (Nat.le_of_eq hlength)]
  have hsame : v.members.length = values.length := hlength.trans hvalues.symm
  refine ⟨_, Store.run?_stores scope slots stack _ hcells, ?_⟩
  rw [hfst, zip_reverse hsame]
  constructor
  · intro i slot hslot
    have hi : i < values.length := hsame ▸ (List.getElem?_eq_some_iff.mp hslot).1
    have hmem : (slot, values[i]) ∈ (v.members.zip values).reverse :=
      List.mem_reverse.mpr (List.mem_of_getElem?
        (List.getElem?_zip_eq_some.mpr ⟨hslot, List.getElem?_eq_getElem hi⟩))
    have hfirst : ((v.members.zip values).reverse.map (·.1)).Nodup := by
      rw [List.map_reverse, List.map_fst_zip (Nat.le_of_eq hsame)]
      exact List.nodup_reverse.mpr hnodup
    rw [written_of_mem hfirst hmem, List.getElem?_eq_getElem hi]
  · intro ref href
    apply written_of_ne
    intro cell hcell
    exact href cell.1 (List.of_mem_zip (List.mem_reverse.mp hcell)).1

end Aggregate

/-- Slots that have taken values are loaded as these values. -/
theorem Aggregate.Takes.map_members {v : Aggregate} {scope : Scope} {values : List Value}
    {slots slots' : Ref → Value} (h : v.Takes scope values slots slots')
    (hlength : v.members.length = values.length) :
    v.members.map (fun slot => slots' ⟨scope, slot⟩) = values := by
  apply List.ext_getElem?
  intro i
  cases hslot : v.members[i]? with
  | none =>
    have hi : v.members.length ≤ i := List.getElem?_eq_none_iff.mp hslot
    rw [List.getElem?_map, hslot, List.getElem?_eq_none (hlength ▸ hi)]
    rfl
  | some slot =>
    rw [List.getElem?_map, hslot, h.taken i slot hslot]
    rfl

/-! ## Types -/

namespace CheckState

/-- A check goes on with other values on the stack, and all else is as it was. -/
structure Turns (st : CheckState) (frames : List Frame) (next : CheckState) : Prop where
  stack : next.stack.frames = frames
  height : next.stack.height - frames.length = st.stack.height - st.stack.frames.length
  rest : next = { st with stack := next.stack }

variable (sym : Symbols) {st mid next : CheckState} {frames frames' : List Frame}

theorem Turns.refl (st : CheckState) : st.Turns st.stack.frames st :=
  ⟨rfl, rfl, rfl⟩

theorem Turns.trans (h : st.Turns frames mid) (h' : mid.Turns frames' next) :
    st.Turns frames' next := by
  refine ⟨h'.stack, ?_, ?_⟩
  · rw [h'.height, h.stack, h.height]
  · rw [h'.rest, h.rest]

theorem Turns.height_eq (h : st.Turns frames next)
    (hlength : frames.length = st.stack.frames.length) : next.stack.height = st.stack.height := by
  have hheight := h.height
  rw [hlength] at hheight
  omega

theorem Turns.inside (h : st.Turns frames next) (hst : st.current ≠ none) :
    next.current ≠ none := by
  rw [h.rest]
  exact hst

theorem turns_pushAll (st : CheckState) (types : List Ty) (loc : Location) :
    st.Turns ((types.map (⟨·, loc⟩)).reverse ++ st.stack.frames) (st.push types loc) := by
  refine ⟨by simp [push, TypeStack.pushAll_eq], ?_, rfl⟩
  simp only [push, TypeStack.pushAll_eq, List.length_append, List.length_reverse]
  omega

theorem turns_pop {f : Frame} (hframes : st.stack.frames = f :: frames) :
    st.Turns frames { st with stack := st.stack.popped 1 } := by
  refine ⟨by simp [TypeStack.popped, hframes], ?_, rfl⟩
  simp only [TypeStack.popped, hframes, List.length_cons]
  omega

section Steps

variable (index : Nat) (loc : Location) (hst : st.current ≠ none) {f : Frame}
  (hframes : st.stack.frames = f :: frames)

include hst hframes

theorem turns_cast (ty : Ty) :
    ∃ next, st.step sym index ⟨.cast ty, loc⟩ = .ok next ∧ st.Turns (⟨ty, loc⟩ :: frames) next := by
  have hpop := turns_pop hframes
  have hpush := turns_pushAll { st with stack := st.stack.popped 1 } [ty] loc
  rw [hpop.stack] at hpush
  refine ⟨_, ?_, hpop.trans hpush⟩
  rw [step_inside sym index _ hst]
  simp [effect, cast, popOne_ok hframes]

theorem turns_store {ref : Ref} {ty : Ty} {v : Scalar} (hv : sym.var? ref = some v)
    (hty : f.ty = ty) :
    ∃ next, st.step sym index ⟨.storeVar ref ty, loc⟩ = .ok next ∧ st.Turns frames next := by
  refine ⟨_, ?_, turns_pop hframes⟩
  rw [step_inside sym index _ hst]
  simp [effect, storeVar, hv, popOne_ok hframes, Symbols.expectType, hty]

end Steps

section Runs

variable (scope : Scope) (index : Nat) (loc : Location) (hst : st.current ≠ none)

include hst

/-- Loads are accepted and push the types of the members. -/
theorem loads_turn (cells : List (Nat × Member)) :
    ∃ next, (run sym st index
        ((cells.map fun cell => OpKind.loadVar ⟨scope, cell.1⟩ cell.2.ty).map (⟨·, loc⟩))).2 =
        .ok next ∧
      st.Turns ((cells.map fun cell => ⟨cell.2.ty, loc⟩).reverse ++ st.stack.frames) next := by
  induction cells generalizing st index with
  | nil => exact ⟨st, rfl, .refl st⟩
  | cons cell cells ih =>
    have hpush := turns_pushAll st [cell.2.ty] loc
    obtain ⟨next, hnext, hturns⟩ := ih (index + 1) (hpush.inside hst)
    refine ⟨next, ?_, ?_⟩
    · rw [List.map_cons, List.map_cons, run_cons_ok (step_inside sym index _ hst)]
      exact hnext
    · rw [hpush.stack] at hturns
      simpa using hpush.trans hturns

/-- Stores are accepted if the types of the members are on the stack, the first of them on top. -/
theorem stores_turn {cells : List (Nat × Member)} {top rest : List Frame}
    (hvars : ∀ cell ∈ cells, ∃ v, sym.var? ⟨scope, cell.1⟩ = some v)
    (hframes : st.stack.frames = top ++ rest)
    (htypes : top.map (·.ty) = cells.map (·.2.ty)) :
    ∃ next, (run sym st index
        ((cells.map fun cell => OpKind.storeVar ⟨scope, cell.1⟩ cell.2.ty).map (⟨·, loc⟩))).2 =
        .ok next ∧ st.Turns rest next := by
  induction cells generalizing st index top with
  | nil =>
    obtain rfl : top = [] := List.map_eq_nil_iff.mp htypes
    exact ⟨st, rfl, by simpa [hframes] using Turns.refl st⟩
  | cons cell cells ih =>
    obtain ⟨⟨v, hv⟩, hvars⟩ := List.forall_mem_cons.mp hvars
    cases top with
    | nil => cases htypes
    | cons f top =>
      obtain ⟨hty, htypes⟩ := List.cons.inj htypes
      obtain ⟨mid, hmid, hturn⟩ := turns_store sym index loc hst hframes hv hty
      obtain ⟨next, hnext, hturns⟩ := ih (index + 1) (hturn.inside hst) hvars hturn.stack htypes
      refine ⟨next, ?_, hturn.trans hturns⟩
      rw [List.map_cons, List.map_cons, run_cons_ok hmid]
      exact hnext

/-- The operations of a value are accepted and push its type. -/
theorem pushes_turn {v : Value} (hv : v.ty ≠ .any) :
    ∃ next, (run sym st index (v.pushes.map (⟨·, loc⟩))).2 = .ok next ∧
      st.Turns (⟨v.ty, loc⟩ :: st.stack.frames) next := by
  obtain ⟨bits, ty⟩ := v
  cases ty with
  | any => exact absurd rfl hv
  | int | bool | ptr =>
    refine ⟨_, ?_, turns_pushAll st [_] loc⟩
    rw [Value.pushes, List.map_singleton, run_singleton, step_inside sym index _ hst]
    rfl
  | struct id =>
    have hpush := turns_pushAll st [.ptr] loc
    have hstep : st.step sym index ⟨.pushPtr bits, loc⟩ = .ok (st.push [.ptr] loc) :=
      step_inside sym index _ hst
    obtain ⟨next, hnext, hturns⟩ := turns_cast sym (index + 1) loc (hpush.inside hst)
      hpush.stack (.struct id)
    refine ⟨next, ?_, hpush.trans hturns⟩
    rw [Value.pushes, List.map_cons, run_cons_ok hstep, List.map_singleton, run_singleton]
    exact hnext

theorem pushAll_turn {values : List Value} (hvalues : ∀ v ∈ values, v.ty ≠ .any) :
    ∃ next, (run sym st index ((values.flatMap Value.pushes).map (⟨·, loc⟩))).2 = .ok next ∧
      st.Turns ((values.map fun v => ⟨v.ty, loc⟩).reverse ++ st.stack.frames) next := by
  induction values generalizing st index with
  | nil => exact ⟨st, rfl, .refl st⟩
  | cons v values ih =>
    obtain ⟨hv, hvalues⟩ := List.forall_mem_cons.mp hvalues
    obtain ⟨mid, hmid, hturn⟩ := pushes_turn sym index loc hst hv
    obtain ⟨next, hnext, hturns⟩ := ih _ (hturn.inside hst) hvalues
    refine ⟨next, ?_, ?_⟩
    · rw [List.flatMap_cons, List.map_append, run_append_ok hmid]
      exact hnext
    · rw [hturn.stack] at hturns
      simpa using hturn.trans hturns

end Runs

end CheckState

/-! ## Struct variables and constants -/

theorem filterMap_types {table : List Scalar} {members : List Member} {first : Nat}
    (h : ∀ i m, members[i]? = some m → ∃ s, table[first + i]? = some s ∧ s.value.ty = m.ty) :
    ((List.range' first members.length).filterMap fun i => table[i]?.map (·.value)).map (·.ty) =
      members.map (·.ty) := by
  induction members generalizing first with
  | nil => rfl
  | cons m members ih =>
    obtain ⟨s, hs, hty⟩ := h 0 m rfl
    have hentries : ∀ i m, members[i]? = some m →
        ∃ s, table[first + 1 + i]? = some s ∧ s.value.ty = m.ty := by
      intro i m hm
      have hi := h (i + 1) m hm
      rwa [Nat.add_right_comm, Nat.add_assoc]
    have hrest := ih hentries
    rw [Nat.add_zero] at hs
    rw [List.length_cons, List.range'_succ, List.filterMap_cons, hs, List.map_cons, ← hrest, ← hty]
    rfl

namespace Aggregate.Backed

variable {s : Symbols} {table : List Scalar} {v : Aggregate}

theorem members_nodup (h : v.Backed s.structs table) : v.members.Nodup := by
  obtain ⟨d, first, _, hmembers, _⟩ := h
  rw [hmembers]
  exact List.nodup_range'

theorem length_members (h : v.Backed s.structs table) :
    v.members.length = (s.members v.struct).length := by
  obtain ⟨d, first, hd, hmembers, _⟩ := h
  rw [hmembers, List.length_range', Symbols.members, hd]
  rfl

/-- The values of a struct constant have the types of the members. -/
theorem constValues_types (h : v.Backed s.structs s.consts) :
    (s.constValues v).map (·.ty) = (s.members v.struct).map (·.ty) := by
  obtain ⟨d, first, hd, hmembers, hentries⟩ := h
  rw [Symbols.constValues, hmembers, Symbols.members, hd]
  refine filterMap_types fun i m hm => ?_
  obtain ⟨c, hc, _, hty⟩ := hentries i m hm
  exact ⟨c, hc, hty⟩

end Aggregate.Backed

/-- What a word can push the values of a struct from: a struct variable or a struct constant. -/
inductive StructSource
  | var (scope : Scope) (v : Aggregate)
  | const (c : Aggregate)

namespace StructSource

def struct : StructSource → Nat
  | var _ v => v.struct
  | const c => c.struct

def values (sym : Symbols) (slots : Ref → Value) : StructSource → List Value
  | var scope v => v.members.map fun slot => slots ⟨scope, slot⟩
  | const c => (sym.constValues c).map Value.literal

/-- The word stands for a struct variable, or it is that of a struct constant. -/
def NamedBy (r : Resolution) (w : String) : StructSource → Prop
  | var scope v => r.AsksFor w .load scope v
  | const c => ∃ i, r.symbols.findStructConst? w = some (i, c)

end StructSource

namespace Resolution

variable {r : Resolution} {w : String}

/-- The word for a struct variable or constant pushes its values, and the checker follows it with
the types of the members. -/
theorem pushes_source (hsound : Sound r) (hcoherent : r.symbols.Coherent) {a : StructSource}
    (ha : a.NamedBy r w) (here : Location) :
    ∃ m, r.lookup w here = .ok (some m) ∧
      (∀ slots stack, Store.run? ⟨slots, stack⟩ m.ops =
        some ⟨slots, (a.values r.symbols slots).reverse ++ stack⟩) ∧
      (∀ slots, (a.values r.symbols slots).length = (r.symbols.members a.struct).length) ∧
      ∀ (sym : Symbols) (st : CheckState) (index : Nat) (loc : Location), st.current ≠ none →
        ∃ next, (CheckState.run sym st index (m.ops.map (⟨·, loc⟩))).2 = .ok next ∧
          st.Turns (((r.symbols.members a.struct).map fun m => ⟨m.ty, loc⟩).reverse ++
            st.stack.frames) next := by
  cases a with
  | var scope v =>
    have hlength := (hcoherent.backed ha.seen.mem).length_members
    refine ⟨_, ha.lookup here, Aggregate.run?_load hlength scope, ?_, ?_⟩
    · intro slots
      exact (List.length_map _).trans hlength
    · intro sym st index loc hst
      have hturns := CheckState.loads_turn sym scope index loc hst
        (v.members.zip (r.symbols.members v.struct))
      rwa [map_zip_snd hlength fun m => (⟨m.ty, loc⟩ : Frame)] at hturns
  | const c =>
    obtain ⟨i, hc⟩ := ha
    have hmem := List.mem_of_getElem? (Named.getElem?_of_last? hc)
    have htypes := (hcoherent.structConsts c hmem).constValues_types
    have hvalues : ∀ v ∈ r.symbols.constValues c, v.ty ≠ .any := by
      intro v hv hany
      have hdeclared := Fold.declared_of_constValues hsound.tables c v hv
      rw [hany] at hdeclared
      exact hdeclared
    refine ⟨_, lookup_of_structConst? (by rw [structConst?, hc]; rfl) here, ?_, ?_, ?_⟩
    · intro slots stack
      exact Store.run?_pushAll slots stack hvalues
    · intro slots
      simpa [StructSource.values, StructSource.struct] using congrArg List.length htypes
    · intro sym st index loc hst
      have hturns := CheckState.pushAll_turn sym index loc hst hvalues
      have hframes : (r.symbols.constValues c).map (fun v => (⟨v.ty, loc⟩ : Frame)) =
          (r.symbols.members c.struct).map fun m => ⟨m.ty, loc⟩ := by
        simpa [Function.comp_def] using congrArg (List.map fun ty => (⟨ty, loc⟩ : Frame)) htypes
      rwa [hframes] at hturns

/-- A word that stores to a struct variable takes the values of its members, and the checker accepts
it where their types are on the stack. -/
theorem stores_to (hcoherent : r.symbols.Coherent) {scope : Scope} {v : Aggregate}
    (hv : r.AsksFor w .store scope v) (here : Location) :
    ∃ m, r.lookup w here = .ok (some m) ∧
      (∀ slots stack values, values.length = (r.symbols.members v.struct).length →
        ∃ slots', Store.run? ⟨slots, values.reverse ++ stack⟩ m.ops = some ⟨slots', stack⟩ ∧
          v.Takes scope values slots slots') ∧
      ∀ (sym : Symbols) (st : CheckState) (index : Nat) (loc : Location) (top rest : List Frame),
        r.symbols.Retains sym → st.current ≠ none → st.stack.frames = top.reverse ++ rest →
        top.map (·.ty) = (r.symbols.members v.struct).map (·.ty) →
        ∃ next, (CheckState.run sym st index (m.ops.map (⟨·, loc⟩))).2 = .ok next ∧
          st.Turns rest next := by
  have hbacked := hcoherent.backed hv.seen.mem
  have hlength := hbacked.length_members
  refine ⟨_, hv.lookup here, ?_, ?_⟩
  · intro slots stack values hvalues
    exact Aggregate.run?_store hlength scope slots stack hbacked.members_nodup hvalues
  · intro sym st index loc top rest hretains hst hframes htypes
    refine CheckState.stores_turn sym scope index loc hst ?_ hframes ?_
    · intro cell hcell
      have hslot := (List.of_mem_zip (List.mem_reverse.mp hcell)).1
      obtain ⟨u, hu⟩ := hbacked.exists_of_mem hslot
      exact ⟨u, hretains.var? ((Symbols.var?_eq _ _).trans hu)⟩
    · rw [List.map_reverse, List.map_reverse, htypes, map_zip_snd hlength fun m => m.ty]

end Resolution

/-- Loads, stores and constants of whole structs fit together. At any point of a resolution where
two words stand for a load of a struct variable and for a store to it: a store with a load behind it
is accepted wherever the types of the members are on top of the stack, leaves all types as they were
and puts the values into the slots of the variable and nowhere else. And a struct variable or
constant of the same struct with a store behind it is accepted on every stack, leaves the stack as
it was and puts the values that were pushed into the slots. The check may use the tables of this
point or of any later one. -/
theorem struct_words_are_inverse {s : TokenStream} {r q : Resolution} {rest rest' : List Token}
    (hr : Resolution.Reaches s.eof {} s.tokens r rest)
    (hq : Resolution.Reaches s.eof r rest q rest') {scope : Scope} {v : Aggregate}
    {load store : String} (hload : r.AsksFor load .load scope v)
    (hstore : r.AsksFor store .store scope v) (here : Location) :
    ∃ loads stores, r.lookup load here = .ok (some loads) ∧
      r.lookup store here = .ok (some stores) ∧
      (∀ (st : CheckState) (index : Nat) (loc loc' : Location) (below : List Ty),
        st.current ≠ none →
        st.stack.types = below ++ (r.symbols.members v.struct).map (·.ty) →
        ∃ next, (CheckState.run q.symbols st index
            (stores.ops.map (⟨·, loc⟩) ++ loads.ops.map (⟨·, loc'⟩))).2 = .ok next ∧
          next.stack.types = st.stack.types ∧ next.stack.height = st.stack.height ∧
          next = { st with stack := next.stack }) ∧
      (∀ (slots : Ref → Value) (values below : List Value),
        values.length = (r.symbols.members v.struct).length →
        ∃ slots', Store.run? ⟨slots, values.reverse ++ below⟩ (stores.ops ++ loads.ops) =
            some ⟨slots', values.reverse ++ below⟩ ∧
          v.Takes scope values slots slots') ∧
      ∀ (a : StructSource) (word : String), a.NamedBy r word → a.struct = v.struct →
        ∃ m, r.lookup word here = .ok (some m) ∧
          (∀ (st : CheckState) (index : Nat) (loc loc' : Location), st.current ≠ none →
            ∃ next, (CheckState.run q.symbols st index
                (m.ops.map (⟨·, loc⟩) ++ stores.ops.map (⟨·, loc'⟩))).2 = .ok next ∧
              next.stack.frames = st.stack.frames ∧ next.stack.height = st.stack.height ∧
              next = { st with stack := next.stack }) ∧
          ∀ (slots : Ref → Value) (stack : List Value),
            Store.run? ⟨slots, stack⟩ m.ops =
              some ⟨slots, (a.values r.symbols slots).reverse ++ stack⟩ ∧
            ∃ slots', Store.run? ⟨slots, stack⟩ (m.ops ++ stores.ops) = some ⟨slots', stack⟩ ∧
              v.Takes scope (a.values r.symbols slots) slots slots' := by
  have hsound := hr.sound .empty
  have hcoherent := hr.coherent .empty .empty
  have hretains := hq.retains hsound
  have hlength := (hcoherent.backed hload.seen.mem).length_members
  obtain ⟨stores, hstores, hputs, htakes⟩ := Resolution.stores_to hcoherent hstore here
  have hsource : (StructSource.var scope v).NamedBy r load := hload
  obtain ⟨loads, hloads, hpushes, _, hturns⟩ :=
    Resolution.pushes_source hsound hcoherent hsource here
  refine ⟨loads, stores, hloads, hstores, ?_, ?_, ?_⟩
  · intro st index loc loc' below hst htypes
    have hframes : st.stack.frames.map (·.ty) =
        ((r.symbols.members v.struct).map (·.ty)).reverse ++ below.reverse := by
      rw [← List.reverse_append, ← htypes, TypeStack.types, List.reverse_reverse]
    obtain ⟨top, rest, hsplit, htop, hrest⟩ := List.map_eq_append_iff.mp hframes
    obtain ⟨mid, hmid, hturn⟩ := htakes q.symbols st index loc top.reverse rest hretains hst
      (by rw [List.reverse_reverse, hsplit]) (by rw [List.map_reverse, htop, List.reverse_reverse])
    obtain ⟨next, hnext, hturn'⟩ := hturns q.symbols mid _ loc' (hturn.inside hst)
    rw [hturn.stack] at hturn'
    have hsame : next.stack.types = st.stack.types := by
      rw [htypes, TypeStack.types, hturn'.stack]
      simp [hrest, StructSource.struct, Function.comp_def]
    have hboth := hturn.trans hturn'
    refine ⟨next, ?_, hsame, hboth.height_eq ?_, hboth.rest⟩
    · rw [CheckState.run_append_ok hmid]
      exact hnext
    · rw [← hboth.stack, ← TypeStack.types_length, ← TypeStack.types_length, hsame]
  · intro slots values below hvalues
    obtain ⟨slots', hrun, htaken⟩ := hputs slots below values hvalues
    refine ⟨slots', ?_, htaken⟩
    rw [Store.run?_append, hrun, Option.bind_some, hpushes, StructSource.values,
      htaken.map_members (hlength.trans hvalues.symm)]
  · intro a word ha hstruct
    obtain ⟨m, hm, hpushes, hcount, hturns⟩ := Resolution.pushes_source hsound hcoherent ha here
    refine ⟨m, hm, ?_, ?_⟩
    · intro st index loc loc' hst
      obtain ⟨mid, hmid, hturn⟩ := hturns q.symbols st index loc hst
      obtain ⟨next, hnext, hturn'⟩ := htakes q.symbols mid _ loc' _ st.stack.frames hretains
        (hturn.inside hst) hturn.stack (by simp [hstruct, Function.comp_def])
      have hboth := hturn.trans hturn'
      refine ⟨next, ?_, hboth.stack, hboth.height_eq rfl, hboth.rest⟩
      rw [CheckState.run_append_ok hmid]
      exact hnext
    · intro slots stack
      refine ⟨hpushes slots stack, ?_⟩
      have hvalues : (a.values r.symbols slots).length = (r.symbols.members v.struct).length := by
        rw [hcount, hstruct]
      obtain ⟨slots', hrun, htaken⟩ := hputs slots stack _ hvalues
      refine ⟨slots', ?_, htaken⟩
      rw [Store.run?_append, hpushes, Option.bind_some, hrun]

def transferText : String :=
  "S struct n int end T struct b bool s S k int 5 end C : T :: true 7 #*S 9 end " ++
    "f :: x : T end C !x x drop drop drop end"

/-- In the body of the procedure the constant fills the variable, whatever is on the stack, and the
values that the constant pushes pass through the variable. -/
theorem transfer_words_are_inverse :
    ∃ s r rest q rest', TokenStream.ofSource "transfer" transferText = .ok s ∧
      Resolution.Reaches s.eof {} s.tokens r rest ∧ Resolution.Reaches s.eof r rest q rest' ∧
      ∃ (v : Aggregate) (loads stores m : Meaning), r.lookup "x" s.eof = .ok (some loads) ∧
        r.lookup "!x" s.eof = .ok (some stores) ∧ r.lookup "C" s.eof = .ok (some m) ∧
        ∀ slots stack,
          (∃ slots', Store.run? ⟨slots, stack⟩ (m.ops ++ stores.ops) = some ⟨slots', stack⟩ ∧
            v.Takes (.frame 0) [.bool true, ⟨7, .struct 0⟩, .int 9] slots slots') ∧
          ∃ slots', Store.run? ⟨slots, [.int 9, ⟨7, .struct 0⟩, .bool true] ++ stack⟩
              (stores.ops ++ loads.ops) =
                some ⟨slots', [.int 9, ⟨7, .struct 0⟩, .bool true] ++ stack⟩ ∧
            v.Takes (.frame 0) [.bool true, ⟨7, .struct 0⟩, .int 9] slots slots' := by
  obtain ⟨s, r, rest, q, rest', hs, hr, hq, found, _, v, _, hload, hstore, hmembers, c, hc, hstruct,
      hvalues⟩ :=
    Resolution.exists_points (x := TokenStream.ofSource "transfer" transferText)
      (P := fun s r q => ∃ found ∈ r.procedure?, ∃ v ∈ found.2.localStructs.head?,
        r.AsksFor "x" .load (.frame 0) v ∧ r.AsksFor "!x" .store (.frame 0) v ∧
        (r.symbols.members v.struct).length = 3 ∧
        ∃ c ∈ r.symbols.findStructConst? "C", c.2.struct = v.struct ∧
          (r.symbols.constValues c.2).map Value.literal =
            [.bool true, ⟨7, .struct 0⟩, .int 9]) 5 7 (by decide +kernel)
  obtain ⟨loads, stores, hloads, hstores, _, hpasses, hfills⟩ :=
    struct_words_are_inverse hr hq hload hstore s.eof
  obtain ⟨m, hm, _, hfills⟩ := hfills (.const c.2) "C" ⟨c.1, hc⟩ hstruct
  refine ⟨s, r, rest, q, rest', hs, hr, hq, v, loads, stores, m, hloads, hstores, hm, ?_⟩
  intro slots stack
  obtain ⟨_, slots', hrun, htaken⟩ := hfills slots stack
  rw [StructSource.values, hvalues] at htaken
  exact ⟨⟨slots', hrun, htaken⟩,
    hpasses slots [.bool true, ⟨7, .struct 0⟩, .int 9] stack hmembers.symm⟩

end StackEffect
