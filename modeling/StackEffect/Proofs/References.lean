import StackEffect.Listing
import StackEffect.Proofs.Appending
import StackEffect.Proofs.Retention
import StackEffect.Proofs.Scoping

/-! # References

Operations refer to procedures, variables, memory regions and string literals by number. In the body
of a procedure they refer to this procedure and to earlier ones, to globals, and to what the
procedure itself declares, and they give the type that is recorded there. What is referred to stays
in the tables, so whoever looks it up later finds it: resolution and the evaluation of constants,
the check, and the listings.
-/

namespace StackEffect

/-! ## References of operations -/

/-- The scopes that the body of a procedure can refer to. -/
def Scope.VisibleIn (p : Nat) (scope : Scope) : Prop :=
  scope = .global ∨ scope = .frame p

namespace OpKind

/-- What an operation in the body of a procedure refers to is there, may be used in this procedure,
and has the type that the operation gives it. -/
def Refers (sym : Symbols) (strings : Lexicon) (p : Nat) : OpKind → Prop
  | call q => q ≤ p ∧ q < sym.procs.length
  | loadVar ref ty | storeVar ref ty =>
    ref.scope.VisibleIn p ∧ ∃ v, sym.var? ref = some v ∧ v.value.ty = ty
  | varAddr ref ty =>
    ref.scope.VisibleIn p ∧ (∃ v, sym.var? ref = some v) ∧
      (ty = .ptr ∨ ∃ v ∈ sym.structVars ref.scope,
        v.members.head? = some ref.index ∧ ty = .struct v.struct)
  | pushMem ref => ref.scope.VisibleIn p ∧ ref.index < (sym.regions ref.scope).length
  | pushStr id => id < strings.texts.length
  | cast ty => ty.Declared sym.structs.length
  | procBegin _ => False
  | procEnd q _ => q = p ∧ q < sym.procs.length
  | _ => True

theorem Refers.mono {s t : Symbols} {strings strings' : Lexicon} {p : Nat} {kind : OpKind}
    (h : kind.Refers s strings p) (hretains : s.Retains t)
    (hstrings : strings.texts <+: strings'.texts) : kind.Refers t strings' p := by
  cases kind with
  | call q => exact ⟨h.1, Nat.lt_of_lt_of_le h.2 hretains.procs⟩
  | procEnd q frame => exact ⟨h.1, Nat.lt_of_lt_of_le h.2 hretains.procs⟩
  | loadVar ref ty | storeVar ref ty =>
    obtain ⟨hscope, v, hv, hty⟩ := h
    exact ⟨hscope, v, hretains.var? hv, hty⟩
  | varAddr ref ty =>
    obtain ⟨hscope, ⟨v, hv⟩, hty⟩ := h
    refine ⟨hscope, ⟨v, hretains.var? hv⟩, hty.imp_right ?_⟩
    rintro ⟨w, hw, hstruct⟩
    exact ⟨w, (hretains.structVars ref.scope).subset hw, hstruct⟩
  | pushMem ref => exact ⟨h.1, Nat.lt_of_lt_of_le h.2 (hretains.regions ref.scope).length_le⟩
  | pushStr id => exact Nat.lt_of_lt_of_le h hstrings.length_le
  | cast ty => exact Ty.Declared.mono h hretains.structs.length_le
  | procBegin q => exact h
  | _ => trivial

/-- Outside of every procedure only the start of one can stand. -/
def RefersIn (sym : Symbols) (strings : Lexicon) (kind : OpKind) : Option Nat → Prop
  | some p => kind.Refers sym strings p
  | none => ∃ p, kind = .procBegin p ∧ p < sym.procs.length

theorem RefersIn.mono {s t : Symbols} {strings strings' : Lexicon} {current : Option Nat}
    {kind : OpKind} (h : kind.RefersIn s strings current) (hretains : s.Retains t)
    (hstrings : strings.texts <+: strings'.texts) : kind.RefersIn t strings' current := by
  cases current with
  | some p => exact Refers.mono h hretains hstrings
  | none =>
    obtain ⟨p, rfl, hp⟩ := h
    exact ⟨p, rfl, Nat.lt_of_lt_of_le hp hretains.procs⟩

/-- The procedure whose body is under way behind an operation. -/
def entered (current : Option Nat) : OpKind → Option Nat
  | procBegin p => some p
  | procEnd _ _ => none
  | _ => current

theorem entered_of_plain {kind : OpKind} (hk : kind.isPlain) (current : Option Nat) :
    kind.entered current = current := by
  cases kind <;> first | rfl | cases hk

end OpKind

def enclosing (ops : List Op) : Option Nat :=
  ops.foldl (fun current op => op.kind.entered current) none

theorem enclosing_snoc (ops : List Op) (op : Op) :
    enclosing (ops ++ [op]) = op.kind.entered (enclosing ops) := by
  simp [enclosing]

def AllRefer (sym : Symbols) (strings : Lexicon) (ops : List Op) : Prop :=
  ∀ (k : Nat) (op : Op), ops[k]? = some op →
    op.kind.RefersIn sym strings (enclosing (ops.take k))

namespace AllRefer

variable {s t : Symbols} {strings strings' : Lexicon} {ops : List Op}

theorem mono (h : AllRefer s strings ops) (hretains : s.Retains t)
    (hstrings : strings.texts <+: strings'.texts) : AllRefer t strings' ops :=
  fun k op hop => (h k op hop).mono hretains hstrings

theorem snoc (h : AllRefer s strings ops) {op : Op}
    (hop : op.kind.RefersIn s strings (enclosing ops)) : AllRefer s strings (ops ++ [op]) := by
  intro k op' hop'
  rcases Nat.lt_or_ge k ops.length with hk | hk
  · rw [List.getElem?_append_left hk] at hop'
    rw [List.take_append_of_le_length (Nat.le_of_lt hk)]
    exact h k op' hop'
  · rw [List.getElem?_append_right hk, List.getElem?_singleton] at hop'
    split at hop'
    · rename_i hlast
      obtain rfl : k = ops.length := by omega
      cases hop'
      rw [List.take_left]
      exact hop
    · cases hop'

/-- Operations of a word keep to the procedure that the word stands in. -/
theorem plains (h : AllRefer s strings ops) {p : Nat} (hin : enclosing ops = some p)
    {kinds : List OpKind} (hplain : ∀ kind ∈ kinds, kind.isPlain)
    (hkinds : ∀ kind ∈ kinds, kind.Refers s strings p) (loc : Location) :
    AllRefer s strings (ops ++ kinds.map (⟨·, loc⟩)) ∧
      enclosing (ops ++ kinds.map (⟨·, loc⟩)) = some p := by
  induction kinds generalizing ops with
  | nil => simpa using ⟨h, hin⟩
  | cons kind kinds ih =>
    obtain ⟨hplain_kind, hplain⟩ := List.forall_mem_cons.mp hplain
    obtain ⟨hkind, hkinds⟩ := List.forall_mem_cons.mp hkinds
    have hnext : AllRefer s strings (ops ++ [⟨kind, loc⟩]) := h.snoc (by rw [hin]; exact hkind)
    have hstill : enclosing (ops ++ [⟨kind, loc⟩]) = some p := by
      rw [enclosing_snoc, hin]
      exact OpKind.entered_of_plain hplain_kind _
    simpa using ih hnext hstill hplain hkinds

end AllRefer

/-! ## References of words -/

theorem Lexicon.intern_lt (l : Lexicon) (text : String) :
    (l.intern text).2 < (l.intern text).1.texts.length := by
  unfold Lexicon.intern
  split
  · rename_i id hid
    exact (List.findIdx?_eq_some_iff_findIdx_eq.mp hid).1
  · simp

theorem Value.refers_of_pushes {sym : Symbols} {v : Value} (hv : v.ty.Declared sym.structs.length)
    (strings : Lexicon) (p : Nat) : ∀ kind ∈ v.pushes, kind.Refers sym strings p := by
  intro kind hkind
  rcases mem_pushes hkind with rfl | rfl | rfl | rfl
  · trivial
  · trivial
  · trivial
  · exact hv

namespace Access

variable {sym : Symbols} {strings : Lexicon} {scope : Scope} {p : Nat}

theorem refers_of_scalarOp (access : Access) {i : Nat} {v : Scalar} (hscope : scope.VisibleIn p)
    (hv : (sym.vars scope)[i]? = some v) :
    (access.scalarOp ⟨scope, i⟩ v.value.ty).Refers sym strings p := by
  have hvar : sym.var? ⟨scope, i⟩ = some v := (sym.var?_eq _).trans hv
  cases access with
  | load | store => exact ⟨hscope, v, hvar, rfl⟩
  | addr => exact ⟨hscope, ⟨v, hvar⟩, .inl rfl⟩

theorem refers_of_structOps (access : Access) (h : sym.Coherent) {v : Aggregate}
    (hscope : scope.VisibleIn p) (hv : v ∈ sym.structVars scope) :
    ∀ kind ∈ access.structOps scope v (sym.members v.struct), kind.Refers sym strings p := by
  have hbacked := h.backed hv
  obtain ⟨d, _, hd, _⟩ := id hbacked
  have hmembers : sym.members v.struct = d.members := by simp [Symbols.members, hd]
  have hslot {i : Nat} {m : Member} (hm : (i, m) ∈ v.members.zip d.members) :
      ∃ w, sym.var? ⟨scope, i⟩ = some w ∧ w.value.ty = m.ty := by
    simpa [Symbols.var?_eq] using hbacked.exists_of_mem_zip hd hm
  intro kind hkind
  rw [hmembers] at hkind
  cases access with
  | load =>
    obtain ⟨⟨i, m⟩, hm, rfl⟩ := List.mem_map.mp hkind
    exact ⟨hscope, hslot hm⟩
  | store =>
    obtain ⟨⟨i, m⟩, hm, rfl⟩ := List.mem_map.mp hkind
    exact ⟨hscope, hslot (List.mem_reverse.mp hm)⟩
  | addr =>
    obtain ⟨i, hi, rfl⟩ := List.mem_map.mp hkind
    have hhead : v.members.head? = some i := Option.mem_toList.mp hi
    refine ⟨hscope, ?_, .inr ⟨v, hv, hhead, rfl⟩⟩
    simpa [Symbols.var?_eq] using hbacked.exists_of_mem (List.mem_of_head? hhead)

end Access

theorem Within.current_of_mem {current : Option Nat} {b : Block} {blocks : List Block}
    (h : Within current blocks) (hb : b ∈ blocks) {id : Nat} (hk : b.kind = .procBlock id) :
    current = some id := by
  induction blocks with
  | nil => cases hb
  | cons b' blocks ih =>
    rcases List.mem_cons.mp hb with rfl | hb
    · exact h.current_eq hk
    · refine ih (h.tail fun q hq => ?_) hb
      rw [h.eq_nil hq] at hb
      cases hb

namespace Resolution

variable {r r' : Resolution} {eof loc : Location} {rest : List Token} {used p : Nat} {text : String}
  {m : Meaning}

def Refers (r : Resolution) (p : Nat) (m : Meaning) : Prop :=
  ∀ kind ∈ m.ops, kind.Refers r.symbols r.strings p

theorem Sees.visibleIn {scope : Scope} (h : r.Sees scope) (hp : r.current = some p) :
    scope.VisibleIn p := by
  cases scope with
  | global => exact .inl rfl
  | frame id =>
    obtain rfl : id = p := Option.some.inj ((h id rfl).symm.trans hp)
    exact .inr rfl

/-- A word in a procedure means operations that may stand there. -/
theorem refers_of_lookup (htables : r.symbols.WellFormed) (h : r.symbols.Coherent)
    (hp : r.current = some p) (hlatest : r.symbols.procs.length = p + 1)
    (hm : r.lookup text loc = .ok (some m)) : r.Refers p m := by
  cases means_of_lookup hm with
  | @structConst i c =>
    intro kind hkind
    obtain ⟨v, hv, hkind⟩ := List.mem_flatMap.mp hkind
    exact v.refers_of_pushes (Fold.declared_of_constValues htables c v hv) _ p kind hkind
  | member | binding | primitive => exact List.forall_mem_singleton.mpr trivial
  | cast hty => exact List.forall_mem_singleton.mpr (declared_of_castTarget? hty)
  | region hscope hregion =>
    have hi := (List.getElem?_eq_some_iff.mp hregion).1
    exact List.forall_mem_singleton.mpr ⟨hscope.visibleIn hp, hi⟩
  | call hq =>
    have hid := (List.getElem?_eq_some_iff.mp (Named.getElem?_of_last? hq)).1
    exact List.forall_mem_singleton.mpr ⟨by omega, hid⟩
  | @const i c hc =>
    have hmem := List.mem_of_getElem? (Named.getElem?_of_last? hc)
    exact c.value.refers_of_pushes (htables.consts c hmem) _ p
  | structVar hscope hv => exact Access.refers_of_structOps _ h (hscope.visibleIn hp) hv
  | var hscope hv =>
    exact List.forall_mem_singleton.mpr (Access.refers_of_scalarOp _ (hscope.visibleIn hp) hv)

/-! ## References along a resolution -/

structure Referenced (r : Resolution) : Prop where
  enclosing : enclosing r.code.ops = r.current
  ops : AllRefer r.symbols r.strings r.code.ops

theorem Referenced.empty : Referenced {} :=
  ⟨rfl, fun k op hop => by simp at hop⟩

theorem Referenced.emit (h : Referenced r) {sym : Symbols} {op : Op} {blocks : List Block}
    {current : Option Nat} (hretains : r.symbols.Retains sym)
    (hop : op.kind.RefersIn sym r.strings r.current)
    (hcurrent : op.kind.entered r.current = current) :
    Referenced ⟨r.strings, sym, ⟨r.code.ops ++ [op], blocks⟩, current⟩ where
  enclosing := by rw [enclosing_snoc, h.enclosing, hcurrent]
  ops := (h.ops.mono hretains (List.prefix_refl _)).snoc (by rw [h.enclosing]; exact hop)

theorem Referenced.emitAll (h : Referenced r) (hp : r.current = some p) {strings : Lexicon}
    (hstrings : r.strings.texts <+: strings.texts) {kinds : List OpKind}
    (hplain : ∀ kind ∈ kinds, kind.isPlain)
    (hkinds : ∀ kind ∈ kinds, kind.Refers r.symbols strings p) (loc : Location) :
    Referenced (({ r with strings := strings } : Resolution).emitAll kinds loc) := by
  obtain ⟨hops, hin⟩ := (h.ops.mono (.refl _) hstrings).plains (h.enclosing.trans hp) hplain hkinds
    loc
  exact ⟨hin.trans hp.symm, hops⟩

/-- Every move of resolution emits operations that refer to what is there. -/
theorem Referenced.move (h : Referenced r) (hsound : Sound r) (hlaid : LaidOut r)
    (hcoherent : r.symbols.Coherent) {t : Token} (hmove : Move eof r t rest r' used) :
    Referenced r' := by
  have hinside {kind : OpKind} (hkind : ∀ p, kind.Refers r.symbols r.strings p)
      (hc : r.current ≠ none) : kind.RefersIn r.symbols r.strings r.current := by
    obtain ⟨p, hp⟩ := Option.ne_none_iff_exists'.mp hc
    rw [hp]
    exact hkind p
  cases hmove with
  | literal ht hp =>
    exact h.emitAll (procedure?_eq_some.mp hp).1 (List.prefix_refl _) (Value.plain_of_pushes _)
      (Value.refers_of_pushes (declared_of_literal? ht _) _ _) t.loc
  | @string text id p ht hp =>
    have hkind : (OpKind.pushStr (r.strings.intern text).2).Refers r.symbols
        (r.strings.intern text).1 id := r.strings.intern_lt text
    exact h.emitAll (procedure?_eq_some.mp hp).1 (r.strings.intern_isPrefix text)
      (List.forall_mem_singleton.mpr rfl)
      (List.forall_mem_singleton.mpr hkind) t.loc
  | word ht hm hc =>
    obtain ⟨p, hp⟩ := Option.ne_none_iff_exists'.mp hc
    exact h.emitAll hp (List.prefix_refl _)
      (fun kind hkind => (usable_of_lookup hsound.tables hm kind hkind).plain)
      (refers_of_lookup hsound.tables hcoherent hp (hlaid.latest p hp) hm) t.loc
  | openIf ht hp =>
    have hc : r.current ≠ none := by simp [(procedure?_eq_some.mp hp).1]
    exact h.emit (.refl _) (hinside (fun _ => trivial) hc) rfl
  | openElse ht hb hk | closeIf ht hb hk | closeElse ht hb hk =>
    have hc : r.current ≠ none := (hb ▸ hsound.within).current_ne_none
    exact h.emit (.refl _) (hinside (fun _ => trivial) hc) rfl
  | openLet ht hp hnames hne =>
    obtain ⟨hid, hget⟩ := procedure?_eq_some.mp hp
    refine h.emit (.modifyProc hget (List.prefix_refl _) (List.prefix_refl _) (List.prefix_refl _))
      ?_ rfl
    rw [hid]
    trivial
  | closeLet ht hb hk hp hcount =>
    obtain ⟨hid, hget⟩ := procedure?_eq_some.mp hp
    refine h.emit (.modifyProc hget (List.prefix_refl _) (List.prefix_refl _) (List.prefix_refl _))
      ?_ rfl
    rw [hid]
    trivial
  | @closeProc b blocks id ht hb hk =>
    have hid := (hb ▸ hsound.within).current_eq hk
    obtain ⟨p, hp, _⟩ := hsound.current id hid
    refine h.emit (.refl _) ?_ rfl
    rw [hid]
    exact ⟨rfl, (List.getElem?_eq_some_iff.mp hp).1⟩
  | declare ht hm hs hshape hproc hr =>
    have hadds := declareShape_adds hproc hr
    have hdeclares := declareShape_declares (Shape.declared_of_classify hsound.tables hshape)
      hproc hr
    refine ⟨by rw [hadds.code, hadds.current]; exact h.enclosing, ?_⟩
    rw [hadds.code, hadds.strings]
    exact h.ops.mono hdeclares.retains (List.prefix_refl _)
  | declareProc ht hm hs hshape hr =>
    obtain ⟨hnone, p, _, _, _, _, _, rfl⟩ := declareProc_eq_ok hr
    refine h.emit (.addProc _ _) ?_ rfl
    rw [hsound.current_eq_none hnone]
    exact ⟨_, rfl, by simp [Symbols.addProc]⟩

theorem Reaches.referenced {start : Resolution} {ts : List Token} (h : Reaches eof start ts r rest)
    (hsound : Sound start) (hlaid : LaidOut start) (hcoherent : start.symbols.Coherent)
    (hstart : Referenced start) : Referenced r := by
  induction h with
  | start => exact hstart
  | step h hstep ih =>
    exact ih.move (h.sound hsound) (h.laidOut hsound hlaid) (h.coherent hsound hcoherent)
      (step_move hstep)

/-- Whatever resolution and the evaluation of constants look up by number is there: procedures, the
structs of constants and variables, and the entries of their members. -/
structure Indexed (r : Resolution) : Prop where
  current : ∀ id, r.current = some id → id < r.symbols.procs.length
  blocks : ∀ b ∈ r.code.blocks, ∀ id, b.kind = .procBlock id → id < r.symbols.procs.length
  structConsts : ∀ c ∈ r.symbols.structConsts, c.struct < r.symbols.structs.length ∧
    ∀ i ∈ c.members, i < r.symbols.consts.length
  structVars : ∀ scope, ∀ v ∈ r.symbols.structVars scope, v.struct < r.symbols.structs.length ∧
    v.members ≠ [] ∧ ∀ i ∈ v.members, i < (r.symbols.vars scope).length

theorem Sound.indexed (h : Sound r) (hcoherent : r.symbols.Coherent) : Indexed r := by
  have hcurrent : ∀ id, r.current = some id → id < r.symbols.procs.length := by
    intro id hid
    obtain ⟨p, hp, _⟩ := h.current id hid
    exact (List.getElem?_eq_some_iff.mp hp).1
  refine ⟨hcurrent, fun b hb id hk => hcurrent id (h.within.current_of_mem hb hk), ?_, ?_⟩
  · intro c hc
    have hbacked := hcoherent.structConsts c hc
    refine ⟨hbacked.struct_lt, fun i hi => ?_⟩
    obtain ⟨s, hs⟩ := hbacked.exists_of_mem hi
    exact (List.getElem?_eq_some_iff.mp hs).1
  · intro scope v hv
    have hbacked := hcoherent.backed hv
    refine ⟨hbacked.struct_lt, hbacked.members_ne_nil hcoherent, fun i hi => ?_⟩
    obtain ⟨s, hs⟩ := hbacked.exists_of_mem hi
    exact (List.getElem?_eq_some_iff.mp hs).1

end Resolution

/-! ## References in the check -/

/-- No primitive gives back an operand that it does not take. -/
theorem Intrinsic.input_lt (i : Intrinsic) {j : Nat} (h : .input j ∈ i.signature.outs) :
    j < i.signature.ins.length := by
  cases i <;> simp [signature] at h ⊢ <;> omega

namespace CheckState

/-- Whatever the check of an operation looks up by number is there. -/
structure Indexed (sym : Symbols) (st : CheckState) (kind : OpKind) : Prop where
  current : ∀ id, st.current = some id → id < sym.procs.length
  proc : ∀ id frame, kind = .call id ∨ kind = .procBegin id ∨ kind = .procEnd id frame →
    id < sym.procs.length
  var : ∀ ref ty, kind = .storeVar ref ty → ∃ v, sym.var? ref = some v
  binding : ∀ depth, kind = .pushBinding depth → depth < st.bindings.length
  struct : ∀ access name offset f rest id, kind = .member access name offset →
    st.stack.frames = f :: rest → f.ty = .struct id → id < sym.structs.length
  input : ∀ i j, kind = .intrinsic i → .input j ∈ i.signature.outs → j < i.signature.ins.length

variable {sym : Symbols} {ops : List Op} {k : Nat} {st next : CheckState} {op : Op}
  {blocks after : List Block}

/-- As far as a pass over operations that are properly nested gets, it holds types that are declared
and is in a procedure that is. -/
theorem Arrives.typed (h : Arrives sym ops k st) (hk : k ≤ ops.length) (hsym : sym.WellFormed)
    (hvalid : ∀ op ∈ ops, op.kind.Valid sym) (hnests : NestsAll 0 (ops.take k) [] blocks) :
    st.Typed sym.structs.length ∧ ∀ id, st.current = some id → id < sym.procs.length := by
  induction k generalizing st blocks with
  | zero =>
    cases h
    exact ⟨⟨by simp, by simp, by simp⟩, by simp⟩
  | succ k ih =>
    have hop : ops[k]? = some ops[k] := List.getElem?_eq_getElem hk
    obtain ⟨before, hbefore, hstep⟩ := h.succ hop
    obtain ⟨mid, hmid, hnests⟩ := hnests.of_take_succ hop
    obtain ⟨htyped, hcurrent⟩ := ih hbefore (Nat.le_of_succ_le hk) hmid
    obtain ⟨hs, haligned, _⟩ := hbefore.holds (Nat.le_of_succ_le hk) hmid
    have hmove := step_move hs hstep
    exact ⟨hmove.typed hsym (hvalid _ (List.getElem_mem hk)) hnests haligned htyped,
      hmove.current_lt hcurrent⟩

/-- An operation that is properly nested finds what its check looks up. -/
theorem indexed_of_nests (hcurrent : ∀ id, st.current = some id → id < sym.procs.length)
    (hnests : Nests k op blocks after) (hvalid : op.kind.Valid sym)
    (haligned : Aligned st.current blocks st.bindings st.branches)
    (htyped : st.Typed sym.structs.length) : Indexed sym st op.kind where
  current := hcurrent
  proc id frame hkind := by
    rcases hkind with hkind | hkind | hkind <;>
    · rw [hkind] at hvalid
      exact hvalid
  var ref ty hkind := by
    rw [hkind] at hvalid
    exact Option.isSome_iff_exists.mp hvalid
  binding depth hkind := by
    rw [haligned.length_eq]
    cases hnests with
    | plain hk hin hdepth => exact hdepth depth hkind
    | procBegin | procEnd | ifBegin | ifElse | ifEnd | elseEnd | bind | unbind => cases hkind
  struct access name offset f rest id _ hframes hty := by
    have hdeclared := htyped.stack f (by simp [hframes])
    rw [hty] at hdeclared
    exact hdeclared
  input i j _ hj := i.input_lt hj

/-- The check changes nothing but the offsets of members. -/
theorem mem_of_mem_run (sym : Symbols) (st : CheckState) (index : Nat) (ops : List Op) :
    ∀ op ∈ (run sym st index ops).1,
      op ∈ ops ∨ ∃ access name offset, op.kind = .member access name offset := by
  induction ops generalizing st index with
  | nil => simp [run]
  | cons op ops ih =>
    cases hstep : st.step sym index op with
    | error f =>
      rw [run_cons_error hstep]
      exact fun op hop => .inl hop
    | ok next =>
      rw [run_cons_ok hstep]
      refine List.forall_mem_cons.mpr ⟨?_, fun op hop => (ih next _ op hop).imp_left ?_⟩
      · unfold annotate
        split
        · exact .inr ⟨_, _, _, rfl⟩
        · exact .inl List.mem_cons_self
      · exact List.mem_cons_of_mem _

end CheckState

/-! ## References in listings -/

/-- Whether a listing names what an operation refers to. -/
def OpKind.isReference : OpKind → Bool
  | call _ | procBegin _ | procEnd _ _ | loadVar _ _ | storeVar _ _ | varAddr _ _ | member _ _ _
  | pushStr _ => true
  | _ => false

theorem Program.detail?_isSome {p : Program} {kind : OpKind} {current : Option Nat}
    (h : kind.RefersIn p.symbols p.strings current) (hkind : kind.isReference) :
    (p.detail? kind).isSome := by
  cases current with
  | none =>
    obtain ⟨id, rfl, hid⟩ := h
    simpa [detail?] using hid
  | some q =>
    cases kind with
    | call id => simpa [detail?] using h.2
    | procEnd id frame => simpa [detail?] using h.2
    | loadVar ref ty | storeVar ref ty =>
      obtain ⟨_, v, hv, _⟩ := h
      simp [detail?, hv]
    | varAddr ref ty =>
      obtain ⟨_, ⟨v, hv⟩, _⟩ := h
      simp [detail?, hv]
    | member access name offset => rfl
    | pushStr id =>
      have hid : id < p.strings.texts.length := h
      simpa [detail?, Lexicon.text?] using hid
    | procBegin id => exact h.elim
    | _ => cases hkind

structure Checked.Indexed (c : Checked) : Prop where
  names : ∀ op ∈ c.program.ops, op.kind.isReference → (c.program.detail? op.kind).isSome
  openers : ∀ e ∈ c.contracts, e.1 < c.program.ops.length

theorem Program.Sound.indexed {p : Program} (h : p.Sound)
    (hrefer : AllRefer p.symbols p.strings p.ops) {c : Checked}
    (hc : Checked.ofProgram p = .ok c) : c.Indexed := by
  rw [h.ofProgram_eq] at hc
  obtain ⟨last, hlast, rfl⟩ := map_eq_ok hc
  constructor
  · intro op hop hkind
    rcases CheckState.mem_of_mem_run p.symbols {} 0 p.ops op hop with
      hmem | ⟨access, name, offset, hmember⟩
    · obtain ⟨k, hk⟩ := List.getElem?_of_mem hmem
      exact Program.detail?_isSome (p := p) (hrefer k op hk) hkind
    · simp [Program.detail?, hmember]
  · have hstart : CheckState.Keyed [] 0 0 {} := ⟨by simp, [], rfl, by simp⟩
    obtain ⟨_, later, hlater, hkeys⟩ :=
      (hstart.run (by simp) (Nat.le_refl 0) (Int.le_refl 0) hlast).1
    rw [CheckState.run_length]
    simpa [hlater] using hkeys

/-! ## All references -/

/-- Whatever is looked up by number is there: at every point of the resolution of a text, at every
point of the check of a program that is resolved, and in the listings of one that is accepted. In a
resolved program the operations of each procedure refer to this procedure and earlier ones, to
globals and to what the procedure declares, with the types that are recorded there. -/
theorem references_are_valid (file source : String) :
    (∀ s r rest, TokenStream.ofSource file source = .ok s →
      Resolution.Reaches s.eof {} s.tokens r rest → r.Indexed) ∧
    ∀ p, Program.ofSource file source = .ok p →
      AllRefer p.symbols p.strings p.ops ∧
      (∀ k op st, p.ops[k]? = some op → CheckState.Arrives p.symbols p.ops k st →
        st.Indexed p.symbols op.kind) ∧
      ∀ c, Checked.ofProgram p = .ok c → c.Indexed := by
  refine ⟨fun s r rest _ h => (h.sound .empty).indexed (h.coherent .empty .empty), ?_⟩
  intro p hp
  have hsound := Program.sound_of_source hp
  have hrefer : AllRefer p.symbols p.strings p.ops := by
    obtain ⟨s, r, _, hreaches, _, rfl⟩ := Program.exists_reaches hp
    exact (hreaches.referenced .empty .empty .empty .empty).ops
  refine ⟨hrefer, fun k op st hop hst => ?_, fun c hc => hsound.indexed hrefer hc⟩
  obtain ⟨hk, hget⟩ := List.getElem?_eq_some_iff.mp hop
  have hsplit := hsound.nested
  rw [← List.take_append_drop k p.ops, List.drop_eq_getElem_cons hk, hget] at hsplit
  obtain ⟨blocks, hfront, hback⟩ := hsplit.split
  rw [Nat.zero_add, List.length_take, Nat.min_eq_left (Nat.le_of_lt hk)] at hback
  obtain ⟨_, haligned, _⟩ := hst.holds (Nat.le_of_lt hk) hfront
  obtain ⟨htyped, hcurrent⟩ := hst.typed (Nat.le_of_lt hk) hsound.tables hsound.ops hfront
  cases hback with
  | cons hnests _ =>
    exact CheckState.indexed_of_nests hcurrent hnests (hsound.ops op (List.mem_of_getElem? hop))
      haligned htyped

/-- A text with references of all kinds: to variables and memory of both scopes, to a struct, to a
string literal, and to a procedure from itself and from a later one. -/
def referringText : String :=
  "P struct x int y int end total int 3 end cell : 4 end at : P end f :: int -> int own : 8 end " ++
    "n int end !n n total + !total *total drop own cell drop drop \"s\" drop drop *at .y drop at " ++
    "!at 8 #P drop n 0 > if n 1 - f else total end end g :: 1 f drop end"

theorem references_of_referring_text_are_valid :
    ∃ s p c, TokenStream.ofSource "referring" referringText = .ok s ∧
      Program.ofSource "referring" referringText = .ok p ∧ Checked.ofProgram p = .ok c ∧
      (∀ r rest, Resolution.Reaches s.eof {} s.tokens r rest → r.Indexed) ∧
      AllRefer p.symbols p.strings p.ops ∧
      (∀ k op st, p.ops[k]? = some op → CheckState.Arrives p.symbols p.ops k st →
        st.Indexed p.symbols op.kind) ∧ c.Indexed := by
  have hok : (Checked.ofSource "referring" referringText).toOption.isSome := by decide +kernel
  cases hc : Checked.ofSource "referring" referringText with
  | error f =>
    rw [hc] at hok
    cases hok
  | ok c =>
    obtain ⟨p, hp, hcheck⟩ := bind_eq_ok hc
    obtain ⟨s, _, hs, _⟩ := Program.exists_reaches hp
    obtain ⟨hpoints, hprogram⟩ := references_are_valid "referring" referringText
    obtain ⟨hrefer, hstates, hlisted⟩ := hprogram p hp
    exact ⟨s, p, c, hs, hp, hcheck, fun r rest h => hpoints s r rest hs h, hrefer, hstates,
      hlisted c hcheck⟩

end StackEffect
