import StackEffect.Proofs.MemberSlots
import StackEffect.Proofs.References
import StackEffect.Proofs.StructTransfers

/-! # Members behind an address

A member of a struct variable can be reached in two ways: directly, as the slot that stands for it,
and by way of the address of the variable, with an offset. The slots are consecutive and the address
is that of the first one; the offset counts the cells in front of the member. So both ways agree on
the cell and on its type.
-/

namespace StackEffect

/-! ## Words -/

def MemberAccess.spelling : MemberAccess → String → String
  | load, name => "." ++ name
  | addr, name => "." ++ ("*" ++ name)

theorem memberWord?_spelling {name : String} (hne : name ≠ "")
    (hstar : stripSigil? '*' name = none) (access : MemberAccess) :
    memberWord? (access.spelling name) = some (access, name) := by
  cases access with
  | load => exact memberWord?_load hne hstar
  | addr => exact memberWord?_star (stripSigil?_append '*' name) hne

/-- A word in a procedure emits the operations that it stands for. -/
theorem Resolution.run_word {r : Resolution} {word : String} {loc : Location} {m : Meaning}
    (hcurrent : r.current ≠ none) (hm : r.lookup word loc = .ok (some m)) (eof : Location)
    (rest : List Token) :
    run eof 0 r (⟨.word word, loc⟩ :: rest) = run eof 0 (r.emitAll m.ops loc) rest := by
  simp [run, step, Resolution.word, hm, hcurrent]

/-! ## Offsets -/

variable {sym : Symbols} {id i j : Nat} {d : StructDef} {m m' : Member}

/-- Members have different names, so the one that is found under a name is the one that has it. -/
theorem StructDef.Regular.member?_eq (hd : d.Regular id) (hm : d.members[i]? = some m) :
    d.member? m.name = some (i, m) := by
  apply Named.first?_of_le hm rfl
  intro k other hother hname
  exact (Named.index_eq_of_names hd.names hother hm hname).ge

/-- The offset of a member is four bytes for each member before it. -/
theorem Symbols.memberOffset?_eq (hsym : sym.Coherent) (hd : sym.structs[id]? = some d)
    (hm : d.members[i]? = some m) : sym.memberOffset? (.struct id) m.name = some (4 * i) := by
  simp [memberOffset?, hd, (hsym.structs id d hd).member?_eq hm, StructDef.offset, cellSize,
    Nat.mul_comm]

theorem Symbols.memberOffset?_ne (hsym : sym.Coherent) (hd : sym.structs[id]? = some d)
    (hm : d.members[i]? = some m) (hm' : d.members[j]? = some m') (hij : i ≠ j) :
    sym.memberOffset? (.struct id) m.name ≠ sym.memberOffset? (.struct id) m'.name := by
  rw [memberOffset?_eq hsym hd hm, memberOffset?_eq hsym hd hm']
  intro hsame
  have hoffset := Option.some.inj hsame
  omega

/-! ## The check -/

namespace CheckState

variable {st : CheckState} {f : Frame} {frames : List Frame} {name : String} {access : MemberAccess}
  {index : Nat} {loc : Location}

/-- Access to a member takes the struct from the stack and leaves what is accessed. -/
theorem turns_member (hsym : sym.Coherent) (hd : sym.structs[id]? = some d)
    (hm : d.members[i]? = some m) (hst : st.current ≠ none)
    (hframes : st.stack.frames = f :: frames) (hf : f.ty = .struct id) (access : MemberAccess)
    (offset : Option Nat) (index : Nat) (loc : Location) :
    ∃ next, st.step sym index ⟨.member access m.name offset, loc⟩ = .ok next ∧
      st.Turns (⟨access.result m.ty, loc⟩ :: frames) next := by
  have hpop := turns_pop hframes
  have hpush := turns_pushAll { st with stack := st.stack.popped 1 } [access.result m.ty] loc
  rw [hpop.stack] at hpush
  refine ⟨_, ?_, hpop.trans hpush⟩
  rw [step_inside sym index _ hst]
  simp [effect, member, popOne_ok hframes, hf, hd, (hsym.structs id d hd).member?_eq hm, Except.map]

/-- A name that no member of the struct has is rejected. -/
theorem step_unknownMember (hd : sym.structs[id]? = some d) (hst : st.current ≠ none)
    (hframes : st.stack.frames = f :: frames) (hf : f.ty = .struct id)
    (hname : ∀ m ∈ d.members, m.name ≠ name) (offset : Option Nat) :
    ∃ fault, st.step sym index ⟨.member access name offset, loc⟩ = .error fault ∧
      fault.cause.kind = .unknownMember := by
  have hnone : d.member? name = none := Named.first?_eq_none.mpr hname
  refine ⟨((Cause.noMember d.name name).fault loc).note (.declaredHere d.name) d.loc, ?_, rfl⟩
  rw [step_inside sym index _ hst]
  simp [effect, member, popOne_ok hframes, hf, hd, hnone, Except.map]

/-- The address of a struct and an access to a member behind it are accepted. The access gets an
offset, and a value of some type is on the stack afterwards. -/
def AcceptsMember (sym : Symbols) (st : CheckState) (ref : Ref) (id : Nat) (access : MemberAccess)
    (name : String) (offset : Nat) (ty : Ty) : Prop :=
  ∀ index loc loc', ∃ next,
    run sym st index [⟨.varAddr ref (.struct id), loc⟩, ⟨.member access name none, loc'⟩] =
      ([⟨.varAddr ref (.struct id), loc⟩, ⟨.member access name (some offset), loc'⟩], .ok next) ∧
    st.Turns (⟨ty, loc'⟩ :: st.stack.frames) next

theorem acceptsMember (hsym : sym.Coherent) (hd : sym.structs[id]? = some d)
    (hm : d.members[i]? = some m) (hst : st.current ≠ none) (ref : Ref) (access : MemberAccess) :
    st.AcceptsMember sym ref id access m.name (4 * i) (access.result m.ty) := by
  intro index loc loc'
  have hpush := turns_pushAll st [.struct id] loc
  obtain ⟨next, hnext, hturns⟩ := turns_member hsym hd hm (hpush.inside hst) hpush.stack rfl access
    none (index + 1) loc'
  refine ⟨next, ?_, hpush.trans hturns⟩
  have hoffset : (st.push [.struct id] loc).annotate sym ⟨.member access m.name none, loc'⟩ =
      ⟨.member access m.name (some (4 * i)), loc'⟩ := by
    simp [annotate, TypeStack.peek?, hpush.stack, Symbols.memberOffset?_eq hsym hd hm]
  rw [run_cons_ok (step_inside sym index _ hst), run_cons_ok hnext, hoffset]
  rfl

end CheckState

/-! ## Slots -/

/-- The slots of the members follow on the first one. -/
theorem Aggregate.Backed.slot_eq {table : List Scalar} {v : Aggregate}
    (h : v.Backed sym.structs table) {first : Nat} (hfirst : v.members.head? = some first)
    (hm : (sym.members v.struct)[i]? = some m) : v.members[i]? = some (first + i) := by
  obtain ⟨d, start, hd, hmembers, _⟩ := h
  simp only [Symbols.members, hd, Option.elim_some] at hm
  have hi : i < d.members.length := (List.getElem?_eq_some_iff.mp hm).1
  obtain rfl : start = first := by
    rw [hmembers, List.head?_range', if_neg (by omega)] at hfirst
    exact Option.some.inj hfirst
  rw [hmembers, List.getElem?_range' hi]
  simp

/-- Operations load a variable with the type that is recorded for it. -/
theorem Resolution.type_of_loadVar {r : Resolution} (h : Referenced r) {op : Op}
    (hop : op ∈ r.code.ops) {ref : Ref} {ty : Ty} (hkind : op.kind = .loadVar ref ty) :
    ∃ u, r.symbols.var? ref = some u ∧ u.value.ty = ty := by
  obtain ⟨k, hk⟩ := List.mem_iff_getElem?.mp hop
  have hrefers := h.ops k op hk
  rw [hkind] at hrefers
  generalize enclosing (r.code.ops.take k) = current at hrefers
  cases current with
  | none =>
    obtain ⟨p, hbegin, _⟩ := hrefers
    cases hbegin
  | some p => exact hrefers.2

/-- Access to a member by way of an address agrees with direct access. Let a word in the body of a
procedure stand for the address of a struct variable, at some point of a resolution. Then the words
for a member and for its address can follow, unless the name of the member starts with a star. The
check accepts both, with the tables of this point and of every later one. It fills in four bytes for
each member before this one, which fits in 32 bits for up to 2 ^ 30 members. The first word leaves
the type that the slot of the member is loaded with, the second one an address, and the slot lies as
many cells behind the one whose address is taken. Different members of a struct have different
offsets, and a name that is not that of a member is rejected. -/
theorem member_access_agrees {file source : String} {s : TokenStream} {r q : Resolution}
    {ts ts' : List Token} (hs : TokenStream.ofSource file source = .ok s)
    (hr : Resolution.Reaches s.eof {} s.tokens r ts) (hq : Resolution.Reaches s.eof r ts q ts')
    (hcurrent : r.current ≠ none) {scope : Scope} {v : Aggregate}
    (hv : v ∈ r.symbols.structVars scope) {first : Nat} (hfirst : v.members.head? = some first)
    {loc : Location} {address : Meaning}
    (haddress : r.lookup ("*" ++ v.name) loc = .ok (some address))
    (hops : address.ops = [.varAddr ⟨scope, first⟩ (.struct v.struct)])
    (hcount : (r.symbols.members v.struct).length ≤ 1073741824) {i : Nat} {m : Member}
    (hm : (r.symbols.members v.struct)[i]? = some m) (hstar : stripSigil? '*' m.name = none) :
    (∀ (access : MemberAccess) eof loc' rest,
      Resolution.run eof 0 r
        (⟨.word ("*" ++ v.name), loc⟩ :: ⟨.word (access.spelling m.name), loc'⟩ :: rest) =
      Resolution.run eof 0 ((r.emitAll [.varAddr ⟨scope, first⟩ (.struct v.struct)] loc).emitAll
        [.member access m.name none] loc') rest) ∧
    (∃ u, v.members[i]? = some (first + i) ∧ q.symbols.var? ⟨scope, first + i⟩ = some u ∧
      (Access.load.structOps scope v (r.symbols.members v.struct))[i]? =
        some (.loadVar ⟨scope, first + i⟩ u.value.ty) ∧
      (∀ op ∈ q.code.ops, ∀ ty, op.kind = .loadVar ⟨scope, first + i⟩ ty → ty = u.value.ty) ∧
      ∀ st : CheckState, st.current ≠ none →
        st.AcceptsMember q.symbols ⟨scope, first⟩ v.struct .load m.name (4 * i) u.value.ty ∧
        st.AcceptsMember q.symbols ⟨scope, first⟩ v.struct .addr m.name (4 * i) .ptr) ∧
    4 * i ≤ byteLimit ∧
    ∀ id d, q.symbols.structs[id]? = some d →
      (∀ (j k : Nat) (a b : Member), d.members[j]? = some a → d.members[k]? = some b → j ≠ k →
        q.symbols.memberOffset? (.struct id) a.name ≠
          q.symbols.memberOffset? (.struct id) b.name) ∧
      ∀ (st : CheckState) index access name offset loc f frames, st.current ≠ none →
        st.stack.frames = f :: frames → f.ty = .struct id → (∀ a ∈ d.members, a.name ≠ name) →
        ∃ fault, st.step q.symbols index ⟨.member access name offset, loc⟩ = .error fault ∧
          fault.cause.kind = .unknownMember := by
  have hsound := hr.sound .empty
  have hcoherent := hr.coherent .empty .empty
  have hlater := hq.coherent hsound hcoherent
  have hretains := hq.retains hsound
  have hbacked := hcoherent.backed hv
  have hslot := hbacked.slot_eq hfirst hm
  obtain ⟨d, hd⟩ : ∃ d, r.symbols.structs[v.struct]? = some d :=
    ⟨_, List.getElem?_eq_getElem hbacked.struct_lt⟩
  have hmember : d.members[i]? = some m := by simpa [Symbols.members, hd] using hm
  -- The check reads the later tables, which still have the struct and the slot.
  have hd' := Symbols.IsPrefix.entry_stays hretains.structs hd
  obtain ⟨u, hu, _, hty⟩ := hbacked.exists_slot hm hslot
  have hu' : q.symbols.var? ⟨scope, first + i⟩ = some u := by
    apply hretains.var?
    rw [Symbols.var?_eq]
    exact hu
  refine ⟨fun access eof loc' rest => ?_, ⟨u, hslot, hu', ?_, fun op hop ty hkind => ?_,
    fun st hst => ?_⟩, ?_, fun id d hd => ⟨fun j k a b ha hb hjk => ?_, ?_⟩⟩
  · have hne := hr.memberNames (TokenStream.word_ne_empty hs) d (List.mem_of_getElem? hd) m
      (List.mem_of_getElem? hmember)
    have hword := hr.lookup_member (memberWord?_spelling hne hstar access) loc'
    rw [Resolution.run_word hcurrent haddress, hops]
    exact Resolution.run_word (r := r.emitAll _ loc) hcurrent hword eof rest
  · have hcell := List.getElem?_zip_eq_some (z := (first + i, m)).mpr ⟨hslot, hm⟩
    rw [hty, Access.structOps, List.getElem?_map, hcell]
    rfl
  · have hreferenced := hq.referenced hsound (hr.laidOut .empty .empty) hcoherent
      (hr.referenced .empty .empty .empty .empty)
    obtain ⟨w, hw, rfl⟩ := Resolution.type_of_loadVar hreferenced hop hkind
    rw [Option.some.inj (hw.symm.trans hu')]
  · rw [hty]
    exact ⟨CheckState.acceptsMember hlater hd' hmember hst _ .load,
      CheckState.acceptsMember hlater hd' hmember hst _ .addr⟩
  · have hi := (List.getElem?_eq_some_iff.mp hm).1
    simp only [byteLimit]
    omega
  · exact Symbols.memberOffset?_ne hlater hd ha hb hjk
  · intro st index access name offset loc f frames hst hframes hf hname
    exact CheckState.step_unknownMember hd hst hframes hf hname offset

def addressText : String :=
  "S struct a int b bool end f :: x int end p : S 3 true end *p .b drop y int end end"

theorem second_member_is_accessed :
    ∃ s r ts q ts', TokenStream.ofSource "address" addressText = .ok s ∧
      Resolution.Reaches s.eof {} s.tokens r ts ∧ Resolution.Reaches s.eof r ts q ts' ∧
      (∀ rest, Resolution.run s.eof 0 r (⟨.word "*p", s.eof⟩ :: ⟨.word ".b", s.eof⟩ :: rest) =
        Resolution.run s.eof 0 ((r.emitAll [.varAddr ⟨.frame 0, 1⟩ (.struct 0)] s.eof).emitAll
          [.member .load "b" none] s.eof) rest) ∧
      ∀ st : CheckState, st.current ≠ none →
        st.AcceptsMember q.symbols ⟨.frame 0, 1⟩ 0 .load "b" 4 .bool ∧
        st.AcceptsMember q.symbols ⟨.frame 0, 1⟩ 0 .addr "b" 4 .ptr := by
  obtain ⟨s, r, ts, q, ts', hs, hr, hq, hcurrent, hmembers, ⟨v, hv, hname, hstruct, hslots⟩,
    address, haddress, hops⟩ :=
    Resolution.exists_points (x := TokenStream.ofSource "address" addressText)
      (P := fun s r q => r.current ≠ none ∧
        r.symbols.members 0 = [⟨"a", .int, .zero .int⟩, ⟨"b", .bool, .zero .bool⟩] ∧
        (∃ v ∈ r.symbols.structVars (.frame 0), v.name = "p" ∧ v.struct = 0 ∧
          v.members = [1, 2]) ∧
        ∃ a ∈ (r.lookup "*p" s.eof).toOption.join, a.ops = [.varAddr ⟨.frame 0, 1⟩ (.struct 0)])
      4 4 (by decide +kernel)
  obtain ⟨name, struct, members, place⟩ := v
  subst hname hstruct hslots
  have hall := member_access_agrees hs hr hq hcurrent hv rfl
    (Resolution.lookup_eq_of_mem haddress) hops (by rw [hmembers]; decide) (i := 1)
    (m := ⟨"b", .bool, .zero .bool⟩) (by rw [hmembers]; rfl) (by decide)
  obtain ⟨hrun, ⟨u, _, _, hload, _, haccepts⟩, _⟩ := hall
  have hty : u.value.ty = .bool := by
    rw [hmembers] at hload
    exact (OpKind.loadVar.inj (Option.some.inj hload)).2.symm
  rw [hty] at haccepts
  exact ⟨s, r, ts, q, ts', hs, hr, hq, hrun .load s.eof s.eof, haccepts⟩

end StackEffect
