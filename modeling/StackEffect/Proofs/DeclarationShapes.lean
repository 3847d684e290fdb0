import StackEffect.Proofs.Expressions
import StackEffect.Proofs.StructGrammar
import StackEffect.Proofs.TruthValues

/-! # The table of declarations

What a word declares is told by the tokens behind it: a type or some colons, and then an initializer
up to its `end`. The shape is found by counting colons and by folding ahead, and the tokens are then
used by the reader of that shape. Together they accept exactly the rows of one table, add what the
row says, and use up the tokens of the row.
-/

namespace StackEffect

/-! ## Initializers -/

theorem Token.isColon_iff {t : Token} : t.isColon ↔ t.kind = .keyword .colon := by
  simp [isColon]

/-- Tokens up to an `end` that fold to some values. -/
inductive Initializer (sym : Symbols) (values : List Value) : List Token → Prop
  | closed {e : List Token} {last : Token} (hend : ¬ HasEnd e)
      (hlast : last.kind = .keyword .endKw) (he : Fold.evaluate sym [] e = .ok values.reverse) :
      Initializer sym values (e ++ [last])

/-- The values that are given, if they have the types asked for, or else, where nothing is given,
the defaults. -/
def GivesOrElides (types : List Ty) (defaults given values : List Value) : Prop :=
  given = values ∧ values.map (·.ty) = types ∨ given = [] ∧ values = defaults

theorem GivesOrElides.types {types : List Ty} {defaults given values : List Value}
    (h : GivesOrElides types defaults given values) (hdefaults : defaults.map (·.ty) = types) :
    values.map (·.ty) = types := by
  rcases h with ⟨_, htypes⟩ | ⟨_, rfl⟩
  · exact htypes
  · exact hdefaults

theorem GivesOrElides.retype {ty : Ty} {given : List Value} {value : Value}
    (h : GivesOrElides [ty] [.zero ty] given [value]) : (⟨value.bits, ty⟩ : Value) = value := by
  obtain ⟨bits, found⟩ := value
  obtain rfl : found = ty := by simpa using h.types rfl
  rfl

variable {sym : Symbols} {eof loc : Location} {ts rest body : List Token} {folded : Folded}
  {what name : String} {v value : Value} {values : List Value} {ty : Ty} {d : StructDef}

/-- An initializer is folded up to its `end`, whatever follows. -/
theorem Folded.ofTokens_eq_ok_iff :
    Folded.ofTokens sym eof ts = .ok folded ↔ ∃ body tail, ts = body ++ tail ∧
      Initializer sym folded.values body ∧ folded.consumed = body.length := by
  constructor
  · intro h
    obtain ⟨e, last, tail, st, rfl, hlast, hst, rfl⟩ := Fold.run_eq_ok_iff.mp h
    refine ⟨e ++ [last], tail, by simp, .closed (Fold.not_hasEnd_of_evaluate hst) hlast ?_, by simp⟩
    rw [List.reverse_reverse]
    exact hst
  · rintro ⟨_, tail, rfl, @⟨e, last, hend, hlast, he⟩, hconsumed⟩
    refine Fold.run_eq_ok_iff.mpr ⟨e, last, tail, _, by simp, hlast, he, ?_⟩
    obtain ⟨values, consumed⟩ := folded
    simpa using hconsumed

theorem Initializer.ofTokens_append (h : Initializer sym values body) (eof : Location)
    (tail : List Token) : Folded.ofTokens sym eof (body ++ tail) = .ok ⟨values, body.length⟩ :=
  Folded.ofTokens_eq_ok_iff.mpr ⟨body, tail, rfl, h, rfl⟩

/-- An initializer does not start with a colon. -/
theorem Initializer.exists_first (h : Initializer sym values body) :
    ∃ t more, body = t :: more ∧ t.isColon = false := by
  obtain @⟨e, last, _, hlast, he⟩ := h
  cases e with
  | nil => exact ⟨last, [], rfl, by rw [Token.isColon, hlast]; rfl⟩
  | cons t e =>
    obtain ⟨st, ht, _⟩ := bind_eq_ok he
    refine ⟨t, e ++ [last], rfl, ?_⟩
    cases hcolon : t.isColon with
    | false => rfl
    | true =>
      rw [Fold.token, Token.isColon_iff.mp hcolon] at ht
      cases ht

theorem Initializer.startsConst_append (h : Initializer sym values body) (tail : List Token) :
    Shape.startsConst (body ++ tail) = false := by
  obtain ⟨t, more, rfl, ht⟩ := h.exists_first
  simp [Shape.startsConst, ht]

namespace Symbols

theorem checkType_eq_ok_iff :
    sym.checkType v ty what loc = .ok value ↔ value = v ∧ v.ty = ty := by
  constructor
  · exact checkType_eq_ok
  · rintro ⟨rfl, hty⟩
    rw [checkType, if_pos hty]

/-- One value of a given type. -/
theorem checkSingle_eq_ok_iff :
    (folded.single what loc >>= fun v => sym.checkType v ty what loc) = .ok value ↔
      folded.values = [value] ∧ value.ty = ty := by
  constructor
  · intro h
    obtain ⟨v, hv, h⟩ := bind_eq_ok h
    obtain ⟨rfl, hty⟩ := checkType_eq_ok h
    exact ⟨Folded.single_eq_ok_iff.mp hv, hty⟩
  · rintro ⟨hvalues, hty⟩
    rw [Folded.single_eq_ok_iff.mpr hvalues, ok_bind]
    exact checkType_eq_ok_iff.mpr ⟨rfl, hty⟩

theorem checkTypes_of_types {members : List Member}
    (h : values.map (·.ty) = members.map (·.ty)) :
    ((values.zip members).mapM fun (v, m) =>
      sym.checkType v m.ty s!"member `{m.name}` of {what}" loc) = .ok values := by
  induction values generalizing members with
  | nil => rfl
  | cons v values ih =>
    cases members with
    | nil => cases h
    | cons m members =>
      obtain ⟨hty, hrest⟩ := List.cons.inj h
      rw [List.zip_cons_cons, List.mapM_cons, ih hrest]
      simp [checkType, hty]

theorem memberValues_eq_ok_iff (hd : d.members ≠ []) {mayElide : Bool} :
    sym.memberValues d folded mayElide what loc = .ok values ↔
      (folded.values = values ∧ values.map (·.ty) = d.members.map (·.ty)) ∨
      (mayElide = true ∧ folded.values = [] ∧ values = d.members.map (·.initial)) := by
  constructor
  · exact memberValues_cases
  · rintro (⟨rfl, htypes⟩ | ⟨rfl, hnone, rfl⟩)
    · have hlength : folded.values.length = d.members.length := by
        simpa using congrArg List.length htypes
      have hne : folded.values ≠ [] := by
        intro hnil
        rw [hnil] at hlength
        exact hd (List.length_eq_zero_iff.mp hlength.symm)
      have hexpect :
          folded.expect d.members.length mayElide what loc = .ok (some folded.values) := by
        simp [Folded.expect, Folded.require, Folded.isElided, hne, hlength, Except.map]
      rw [memberValues, hexpect, ok_bind]
      exact checkTypes_of_types htypes
    · simp [memberValues, Folded.expect, Folded.isElided, hnone]

end Symbols

theorem Resolution.initialValue_eq_ok_iff {r : Resolution} :
    r.initialValue loc folded ty what = .ok value ↔
      GivesOrElides [ty] [.zero ty] folded.values [value] := by
  unfold initialValue GivesOrElides
  split
  · rename_i helided
    have hnone : folded.values = [] := by simpa [Folded.isElided] using helided
    simp [hnone, eq_comm]
  · rename_i helided
    have hne : folded.values ≠ [] := by simpa [Folded.isElided] using helided
    rw [Symbols.checkSingle_eq_ok_iff]
    simp [hne]

/-! ## What is declared -/

inductive Entry
  | var (value : Value)
  | const (value : Value)
  | structVar (id : Nat) (d : StructDef) (values : List Value)
  | structConst (id : Nat) (d : StructDef) (values : List Value)
  | region (size : Nat)

def Memory.extend (m : Memory) (regions : List Region) : Memory :=
  ⟨m.regions ++ regions, regions.foldl (fun size region => size + region.size) m.size⟩

def wholeCells (bytes : Nat) : Nat :=
  (bytes + 3) / 4 * 4

theorem Memory.reserve?_eq (m : Memory) (name : String) (bytes : Nat) (loc : Location) :
    m.reserve? name bytes loc = if m.size + wholeCells bytes ≤ byteLimit then
      some (m.extend [⟨name, m.size, wholeCells bytes, loc⟩]) else none := by
  have hround : roundToCell? bytes =
      if wholeCells bytes ≤ byteLimit then some (wholeCells bytes) else none := rfl
  rw [reserve?, hround]
  by_cases hsize : wholeCells bytes ≤ byteLimit
  · simp [hsize, extend]
  · -- A region that is past the limit by itself has no room in any memory.
    have hfull : ¬ m.size + wholeCells bytes ≤ byteLimit := by omega
    simp [hsize, hfull]

/-- The scalars that hold the values of the members of a struct variable or constant. -/
def StructDef.slots (d : StructDef) (owner : String) (values : List Value) (loc : Location) :
    List Scalar :=
  List.zipWith (fun m v => ⟨s!"{owner}.{m.name}", v, loc⟩) d.members values

theorem StructDef.scalars_eq_slots (h : values.map (·.ty) = d.members.map (·.ty))
    (owner : String) (loc : Location) : d.scalars owner values loc = d.slots owner values loc := by
  unfold scalars slots
  generalize d.members = members at h
  induction values generalizing members with
  | nil => simp
  | cons v values ih =>
    cases members with
    | nil => cases h
    | cons m members =>
      obtain ⟨hty, hrest⟩ := List.cons.inj h
      obtain ⟨bits, ty⟩ := v
      obtain rfl : ty = m.ty := hty
      rw [List.zip_cons_cons, List.map_cons, List.zipWith_cons_cons, ih members hrest]

theorem StructDef.length_slots (h : values.map (·.ty) = d.members.map (·.ty)) (owner : String)
    (loc : Location) : (d.slots owner values loc).length = d.members.length := by
  have hlength : values.length = d.members.length := by simpa using congrArg List.length h
  simp [slots, hlength]

namespace Resolution

def ownVars (r : Resolution) : List Scalar :=
  r.procedure?.elim r.symbols.globals (·.2.locals)

def ownMemory (r : Resolution) : Memory :=
  r.procedure?.elim r.symbols.memory (·.2.memory)

/-- The state with more entries in the scope that is being read, and no other change. -/
def extendScope (r : Resolution) (vars : List Scalar) (structVars : List Aggregate)
    (regions : List Region) : Resolution :=
  match r.procedure? with
  | none => { r with symbols := { r.symbols with
      globals := r.symbols.globals ++ vars
      globalStructs := r.symbols.globalStructs ++ structVars
      memory := r.symbols.memory.extend regions } }
  | some (id, p) => r.setProcedure id { p with
      locals := p.locals ++ vars
      localStructs := p.localStructs ++ structVars
      memory := p.memory.extend regions }

/-- The state with more constants, and no other change. -/
def extendConsts (r : Resolution) (consts : List Scalar) (structConsts : List Aggregate) :
    Resolution :=
  { r with symbols := { r.symbols with
      consts := r.symbols.consts ++ consts
      structConsts := r.symbols.structConsts ++ structConsts } }

end Resolution

/-- The state with a new entry. The members of a struct get slots one behind the other. -/
def Entry.addTo (r : Resolution) (name : String) (loc : Location) : Entry → Resolution
  | var value => r.extendScope [⟨name, value, loc⟩] [] []
  | const value => r.extendConsts [⟨name, value, loc⟩] []
  | structVar id d values => r.extendScope (d.slots name values loc)
      [⟨name, id, List.range' r.ownVars.length d.members.length, loc⟩] []
  | structConst id d values => r.extendConsts (d.slots name values loc)
      [⟨name, id, List.range' r.symbols.consts.length d.members.length, loc⟩]
  | region size => r.extendScope [] [] [⟨name, r.ownMemory.size, size, loc⟩]

inductive StartsSize (sym : Symbols) : TokenKind → Prop
  | int (n : Int64) : StartsSize sym (.int n)
  | const {c : Scalar} (hc : c ∈ sym.consts) (hstruct : ∀ d ∈ sym.structs, d.name ≠ c.name) :
    StartsSize sym (.word c.name)

/-- The table of declarations: the tokens behind a word, and what they declare it to be. -/
inductive Declaration (r : Resolution) : List Token → Entry → Prop
  /-- `T [value] end` -/
  | var {t : Token} {ty : Ty} {body : List Token} {given : List Value} {value : Value}
      (ht : NamesType r.symbols t.kind ty) (hscalar : ty.isStruct = false)
      (hbody : Initializer r.symbols given body)
      (hvalue : GivesOrElides [ty] [.zero ty] given [value]) :
      Declaration r (t :: body) (.var value)
  /-- `T :: value end` -/
  | const {t c c' : Token} {ty : Ty} {body : List Token} {value : Value}
      (ht : NamesType r.symbols t.kind ty) (hscalar : ty.isStruct = false) (hc : c.isColon)
      (hc' : c'.isColon) (hbody : Initializer r.symbols [value] body) (hvalue : value.ty = ty) :
      Declaration r (t :: c :: c' :: body) (.const value)
  /-- `: S [values] end` -/
  | structVar {c w : Token} {id : Nat} {d : StructDef} {body : List Token}
      {given values : List Value} (hc : c.isColon) (hw : w.kind = .word d.name)
      (hd : r.symbols.structs[id]? = some d) (hbody : Initializer r.symbols given body)
      (hvalues : GivesOrElides (d.members.map (·.ty)) (d.members.map (·.initial)) given values) :
      Declaration r (c :: w :: body) (.structVar id d values)
  /-- `: S :: values end` -/
  | structConst {c w c' c'' : Token} {id : Nat} {d : StructDef} {body : List Token}
      {values : List Value} (hc : c.isColon) (hw : w.kind = .word d.name)
      (hd : r.symbols.structs[id]? = some d) (hc' : c'.isColon) (hc'' : c''.isColon)
      (hbody : Initializer r.symbols values body)
      (hvalues : values.map (·.ty) = d.members.map (·.ty)) :
      Declaration r (c :: w :: c' :: c'' :: body) (.structConst id d values)
  /-- `: size end` -/
  | region {c t : Token} {body : List Token} {n : Int64} (hc : c.isColon)
      (ht : StartsSize r.symbols t.kind) (hbody : Initializer r.symbols [.int n] (t :: body))
      (hmin : 1 ≤ n.toInt) (hmax : n.toInt ≤ byteLimit)
      (hfits : r.ownMemory.size + wholeCells n.toInt.toNat ≤ byteLimit) :
      Declaration r (c :: t :: body) (.region (wholeCells n.toInt.toNat))
  /-- `:: value end` -/
  | untyped {c c' : Token} {body : List Token} {value : Value} (hc : c.isColon) (hc' : c'.isColon)
      (hbody : Initializer r.symbols [value] body) :
      Declaration r (c :: c' :: body) (.const value)

/-! ## How the shape is found -/

namespace Shape

inductive Heads (sym : Symbols) (eof : Location) : List Token → Shape → Prop
  | var {t : Token} {ty : Ty} {tail : List Token} (ht : NamesType sym t.kind ty)
      (hscalar : ty.isStruct = false) (htail : startsConst tail = false) :
      Heads sym eof (t :: tail) (.var ty)
  | const {t c c' : Token} {ty : Ty} {tail : List Token} (ht : NamesType sym t.kind ty)
      (hscalar : ty.isStruct = false) (hc : c.isColon) (hc' : c'.isColon) :
      Heads sym eof (t :: c :: c' :: tail) (.const ty)
  | structVar {c w : Token} {id : Nat} {d : StructDef} {tail : List Token} (hc : c.isColon)
      (hw : w.kind = .word d.name) (hd : sym.structs[id]? = some d)
      (htail : startsConst tail = false) : Heads sym eof (c :: w :: tail) (.structVar id d)
  | structConst {c w c' c'' : Token} {id : Nat} {d : StructDef} {tail : List Token}
      (hc : c.isColon) (hw : w.kind = .word d.name) (hd : sym.structs[id]? = some d)
      (hc' : c'.isColon) (hc'' : c''.isColon) :
      Heads sym eof (c :: w :: c' :: c'' :: tail) (.structConst id d)
  | memory {c t : Token} {tail : List Token} (hc : c.isColon) (ht : StartsSize sym t.kind) :
      Heads sym eof (c :: t :: tail) .memory
  | untyped {c c' : Token} {value : Value} {consumed : Nat} {tail : List Token} (hc : c.isColon)
      (hc' : c'.isColon) (hfold : Folded.ofTokens sym eof tail = .ok ⟨[value], consumed⟩) :
      Heads sym eof (c :: c' :: tail) (.untyped value consumed)

theorem startsConst_eq_true_iff {tokens : List Token} :
    startsConst tokens = true ↔
      ∃ c c' tail, tokens = c :: c' :: tail ∧ c.isColon ∧ c'.isColon := by
  match tokens with
  | [] | [_] => simp [startsConst]
  | c :: c' :: tail => simp [startsConst]

theorem ofPlain_heads {shape : Shape} (h : ofPlain name loc rest = .ok shape)
    (hstruct : shape ≠ .struct) : Heads sym eof rest shape := by
  unfold ofPlain at h
  split at h
  · cases h
    exact absurd rfl hstruct
  · rename_i k place tail _
    cases hty : k.scalar? with
    | none =>
      rw [hty] at h
      cases h
    | some ty =>
      have ht : NamesType sym (.keyword k) ty := Keyword.scalar?_eq_some_iff.mp hty
      have hscalar : ty.isStruct = false := by cases ht <;> rfl
      rw [hty] at h
      cases h
      split
      · rename_i hconst
        obtain ⟨c, c', tail, rfl, hc, hc'⟩ := startsConst_eq_true_iff.mp hconst
        exact .const ht hscalar hc hc'
      · rename_i hvar
        exact .var ht hscalar (by simpa using hvar)
  · cases h

theorem ofColon_heads (hsym : sym.Coherent) {c : Token} (hc : c.isColon) {shape : Shape}
    (h : ofColon sym name eof rest = .ok shape) : Heads sym eof (c :: rest) shape := by
  unfold ofColon at h
  split at h
  · cases h
  · rename_i t tail
    split at h
    · rename_i w hw
      split at h
      · rename_i id d hfind
        obtain ⟨hd, rfl⟩ := hsym.findStruct?_eq_some_iff.mp hfind
        cases h
        split
        · rename_i hconst
          obtain ⟨c', c'', tail, rfl, hc', hc''⟩ := startsConst_eq_true_iff.mp hconst
          exact .structConst hc hw hd hc' hc''
        · rename_i hvar
          exact .structVar hc hw hd (by simpa using hvar)
      · rename_i hnone
        split at h
        · rename_i hconst
          obtain ⟨⟨i, const⟩, hfound⟩ := Option.isSome_iff_exists.mp hconst
          cases h
          refine .memory hc ?_
          obtain rfl : const.name = w := Named.name_of_last? hfound
          rw [hw]
          exact .const (List.mem_of_getElem? (Named.getElem?_of_last? hfound))
            (Named.last?_eq_none.mp hnone)
        · cases h
    · rename_i n hn
      cases h
      exact .memory hc (hn ▸ .int n)
    · cases h

theorem exists_untyped (hproc : ofColons sym eof rest ≠ .proc) :
    ∃ value consumed, ofColons sym eof rest = .untyped value consumed := by
  revert hproc
  unfold ofColons
  split
  · exact fun _ => ⟨_, _, rfl⟩
  · exact fun hproc => absurd rfl hproc

theorem exists_of_colons {colons : List Token} (h : rest.takeWhile Token.isColon = colons) :
    ∃ tail, rest = colons ++ tail ∧ ∀ c ∈ colons, c.isColon := by
  subst h
  exact ⟨rest.dropWhile Token.isColon, List.takeWhile_append_dropWhile.symm,
    fun c hc => List.mem_takeWhile_imp hc⟩

/-- The shape that is found stands at the front of the tokens. -/
theorem heads_of_classify (hsym : sym.Coherent) {shape : Shape}
    (h : classify sym name loc eof rest = .ok shape) (hstruct : shape ≠ .struct)
    (hproc : shape ≠ .proc) : Heads sym eof rest shape := by
  unfold classify at h
  split at h
  · exact ofPlain_heads h hstruct
  · rename_i hcount
    obtain ⟨c, hcolons⟩ := List.length_eq_one_iff.mp hcount
    obtain ⟨tail, rfl, hall⟩ := exists_of_colons hcolons
    exact ofColon_heads hsym (hall c (by simp)) h
  · rename_i hcount
    obtain ⟨c, c', hcolons⟩ := List.length_eq_two.mp hcount
    obtain ⟨tail, rfl, hall⟩ := exists_of_colons hcolons
    cases h
    obtain ⟨value, consumed, hshape⟩ := exists_untyped hproc
    rw [hshape]
    exact .untyped (hall c (by simp)) (hall c' (by simp)) (ofTokens_of_ofColons hshape)
  · cases h

theorem classify_colon {c t : Token} {tail : List Token} (hc : c.isColon)
    (ht : t.isColon = false) :
    classify sym name loc eof (c :: t :: tail) = ofColon sym name eof (t :: tail) := by
  simp [classify, hc, ht]

/-- The tokens at the front decide the shape. -/
theorem Heads.classify_eq (hsym : sym.Coherent) {shape : Shape} (h : Heads sym eof rest shape)
    (name : String) (loc : Location) : classify sym name loc eof rest = .ok shape := by
  cases h with
  | @var t ty tail ht hscalar htail =>
    obtain ⟨kind, place⟩ := t
    cases ht with
    | int | bool | ptr => simp [classify, Token.isColon, ofPlain, Keyword.scalar?, htail]
    | struct => cases hscalar
  | @const t c c' ty tail ht hscalar hc hc' =>
    have htail := startsConst_eq_true_iff.mpr ⟨c, c', tail, rfl, hc, hc'⟩
    obtain ⟨kind, place⟩ := t
    cases ht with
    | int | bool | ptr => simp [classify, Token.isColon, ofPlain, Keyword.scalar?, htail]
    | struct => cases hscalar
  | structVar hc hw hd htail =>
    have hfind := hsym.findStruct?_eq_some_iff.mpr ⟨hd, rfl⟩
    rw [classify_colon hc (by rw [Token.isColon, hw]; rfl)]
    simp [ofColon, hw, hfind, htail]
  | @structConst c w c' c'' id d tail hc hw hd hc' hc'' =>
    have hfind := hsym.findStruct?_eq_some_iff.mpr ⟨hd, rfl⟩
    have htail := startsConst_eq_true_iff.mpr ⟨c', c'', tail, rfl, hc', hc''⟩
    rw [classify_colon hc (by rw [Token.isColon, hw]; rfl)]
    simp [ofColon, hw, hfind, htail]
  | @memory c t tail hc ht =>
    obtain ⟨kind, place⟩ := t
    cases ht with
    | int n => exact classify_colon hc rfl
    | @const entry hentry hstruct =>
      have hnone : sym.findStruct? entry.name = none := Named.last?_eq_none.mpr hstruct
      have hsome : (sym.findConst? entry.name).isSome := by
        rw [Option.isSome_iff_ne_none]
        intro hfind
        exact Named.last?_eq_none.mp hfind entry hentry rfl
      rw [classify_colon hc rfl]
      simp [ofColon, hnone, hsome]
  | untyped hc hc' hfold =>
    obtain ⟨body, more, rfl, hbody, _⟩ := Folded.ofTokens_eq_ok_iff.mp hfold
    obtain ⟨first, _, rfl, hfirst⟩ := hbody.exists_first
    rw [List.cons_append] at hfold ⊢
    simp [classify, hc, hc', hfirst, ofColons, hfold]

end Shape

/-! ## How the tokens are used -/

namespace Resolution

variable {r r' : Resolution} {used : Nat}

theorem addVar_eq_extendScope (v : Scalar) : (r.addVar v).2 = r.extendScope [v] [] [] := by
  unfold addVar extendScope
  split <;> simp_all [Memory.extend, Symbols.addGlobal, Procedure.addLocal]

theorem addStructVar_eq_extendScope (r : Resolution) (name : String) (loc : Location)
    (vs : List Scalar) (id : Nat) :
    (r.addVars vs).2.addStructVar ⟨name, id, (r.addVars vs).1, loc⟩ =
      r.extendScope vs [⟨name, id, List.range' r.ownVars.length vs.length, loc⟩] [] := by
  cases hproc : r.procedure? with
  | none =>
    have hstill : procedure? { r with symbols := { r.symbols with
        globals := r.symbols.globals ++ vs } } = none := hproc
    simp [addVars_eq_globals hproc, addStructVar, hstill, extendScope, hproc, ownVars,
      Symbols.addGlobalStruct, Memory.extend]
  | some found =>
    simp [addVars_eq_locals hproc, addStructVar, procedure?_setProcedure hproc,
      setProcedure_setProcedure, extendScope, hproc, ownVars, Procedure.addLocalStruct,
      Memory.extend]

theorem addMemory?_eq_some_iff {size : Nat} :
    r.addMemory? name size loc = some r' ↔ r.ownMemory.size + wholeCells size ≤ byteLimit ∧
      r' = (Entry.region (wholeCells size)).addTo r name loc := by
  unfold addMemory? Entry.addTo extendScope ownMemory
  cases r.procedure? with
  | none => simp [Symbols.addMemory?, Memory.reserve?_eq, eq_comm]
  | some found => simp [Procedure.addMemory?_eq, Memory.reserve?_eq, eq_comm]

theorem declareVar_eq_ok_iff {t : Token} :
    r.declareVar eof name loc (t :: ts) ty = .ok (r', used) ↔
      ∃ folded value, Folded.ofTokens r.symbols eof ts = .ok folded ∧
        GivesOrElides [ty] [.zero ty] folded.values [value] ∧
        r' = (Entry.var value).addTo r name loc ∧ used = 1 + folded.consumed := by
  constructor
  · intro h
    obtain ⟨folded, value, hfold, hvalue, rfl, rfl⟩ := declareVar_eq_ok h
    have hgiven := initialValue_eq_ok_iff.mp hvalue
    rw [addVar_eq_extendScope, hgiven.retype]
    exact ⟨folded, value, hfold, hgiven, rfl, rfl⟩
  · rintro ⟨folded, value, hfold, hgiven, rfl, rfl⟩
    have hbehind : r.fold eof (t :: ts) 1 = .ok folded := hfold
    rw [declareVar, hbehind, ok_bind, initialValue_eq_ok_iff.mpr hgiven, ok_bind,
      addVar_eq_extendScope, hgiven.retype]
    rfl

theorem declareConst_eq_ok_iff {t c c' : Token} :
    r.declareConst eof name loc (t :: c :: c' :: ts) ty = .ok (r', used) ↔
      ∃ folded value, Folded.ofTokens r.symbols eof ts = .ok folded ∧ folded.values = [value] ∧
        value.ty = ty ∧ r' = (Entry.const value).addTo r name loc ∧ used = 3 + folded.consumed := by
  constructor
  · intro h
    obtain ⟨folded, value, hfold, hsingle, hty, rfl, rfl⟩ := declareConst_eq_ok h
    refine ⟨folded, value, hfold, Folded.single_eq_ok_iff.mp hsingle, hty, ?_, rfl⟩
    simp [addConsts_eq, Entry.addTo, extendConsts]
  · rintro ⟨folded, value, hfold, hvalues, rfl, rfl, rfl⟩
    have hbehind : r.fold eof (t :: c :: c' :: ts) 3 = .ok folded := hfold
    rw [declareConst, hbehind, ok_bind]
    simp [Folded.single_eq_ok_iff.mpr hvalues, Symbols.checkType, addConsts_eq, Entry.addTo,
      extendConsts]

theorem declareUntyped_eq (value : Value) (consumed : Nat) :
    r.declareUntyped name loc value consumed =
      ((Entry.const value).addTo r name loc, 2 + consumed) := by
  simp [declareUntyped, addConsts_eq, Entry.addTo, extendConsts]

theorem declareStructVar_eq_ok_iff {c w : Token} {id : Nat} (hd : d.Regular id) :
    r.declareStructVar eof name loc (c :: w :: ts) id d = .ok (r', used) ↔
      ∃ folded values, Folded.ofTokens r.symbols eof ts = .ok folded ∧
        GivesOrElides (d.members.map (·.ty)) (d.members.map (·.initial)) folded.values values ∧
        r' = (Entry.structVar id d values).addTo r name loc ∧ used = 2 + folded.consumed := by
  have hdefaults : (d.members.map (·.initial)).map (·.ty) = d.members.map (·.ty) := by
    simpa using hd.defaults
  constructor
  · intro h
    obtain ⟨folded, values, hfold, hvalues, rfl, rfl⟩ := declareStructVar_eq_ok h
    have hgiven : GivesOrElides (d.members.map (·.ty)) (d.members.map (·.initial)) folded.values
        values := by
      simpa [GivesOrElides] using (Symbols.memberValues_eq_ok_iff hd.nonempty).mp hvalues
    have htypes := hgiven.types hdefaults
    refine ⟨folded, values, hfold, hgiven, ?_, rfl⟩
    rw [StructDef.scalars_eq_slots htypes, addStructVar_eq_extendScope,
      StructDef.length_slots htypes]
    rfl
  · rintro ⟨folded, values, hfold, hgiven, rfl, rfl⟩
    have htypes := hgiven.types hdefaults
    have hbehind : r.fold eof (c :: w :: ts) 2 = .ok folded := hfold
    have hvalues : r.symbols.memberValues d folded true s!"variable `{name}`" loc = .ok values :=
      (Symbols.memberValues_eq_ok_iff hd.nonempty).mpr (by simpa [GivesOrElides] using hgiven)
    have hstate := addStructVar_eq_extendScope r name loc (d.slots name values loc) id
    rw [StructDef.length_slots htypes] at hstate
    rw [declareStructVar, hbehind, ok_bind, hvalues, ok_bind, StructDef.scalars_eq_slots htypes,
      Entry.addTo, ← hstate]
    rfl

theorem declareStructConst_eq_ok_iff {c w c' c'' : Token} {id : Nat} (hd : d.Regular id) :
    r.declareStructConst eof name loc (c :: w :: c' :: c'' :: ts) id d = .ok (r', used) ↔
      ∃ folded, Folded.ofTokens r.symbols eof ts = .ok folded ∧
        folded.values.map (·.ty) = d.members.map (·.ty) ∧
        r' = (Entry.structConst id d folded.values).addTo r name loc ∧
        used = 4 + folded.consumed := by
  constructor
  · intro h
    obtain ⟨folded, values, hfold, hvalues, rfl, rfl⟩ := declareStructConst_eq_ok h
    obtain ⟨rfl, htypes⟩ : folded.values = values ∧ _ := by
      simpa using (Symbols.memberValues_eq_ok_iff hd.nonempty).mp hvalues
    refine ⟨folded, hfold, htypes, ?_, rfl⟩
    rw [StructDef.scalars_eq_slots htypes, addConsts_eq, StructDef.length_slots htypes]
    rfl
  · rintro ⟨folded, hfold, htypes, rfl, rfl⟩
    have hbehind : r.fold eof (c :: w :: c' :: c'' :: ts) 4 = .ok folded := hfold
    have hvalues : r.symbols.memberValues d folded false s!"constant `{name}`" loc =
        .ok folded.values :=
      (Symbols.memberValues_eq_ok_iff hd.nonempty).mpr (.inl ⟨rfl, htypes⟩)
    rw [declareStructConst, hbehind, ok_bind, hvalues, ok_bind, StructDef.scalars_eq_slots htypes,
      addConsts_eq, StructDef.length_slots htypes]
    rfl

theorem declareMemory_eq_ok_iff {c : Token} :
    r.declareMemory eof name loc (c :: ts) = .ok (r', used) ↔
      ∃ folded n, Folded.ofTokens r.symbols eof ts = .ok folded ∧ folded.values = [.int n] ∧
        1 ≤ n.toInt ∧ n.toInt ≤ byteLimit ∧
        r.ownMemory.size + wholeCells n.toInt.toNat ≤ byteLimit ∧
        r' = (Entry.region (wholeCells n.toInt.toNat)).addTo r name loc ∧
        used = 1 + folded.consumed := by
  constructor
  · intro h
    obtain ⟨folded, ⟨bits, found⟩, hfold, hsingle, rfl, hmin, hmax, hmemory, rfl⟩ :=
      declareMemory_eq_ok h
    obtain ⟨hfits, hstate⟩ := addMemory?_eq_some_iff.mp hmemory
    exact ⟨folded, bits, hfold, Folded.single_eq_ok_iff.mp hsingle, hmin, hmax, hfits, hstate, rfl⟩
  · rintro ⟨folded, n, hfold, hvalues, hmin, hmax, hfits, rfl, rfl⟩
    have hbehind : r.fold eof (c :: ts) 1 = .ok folded := hfold
    have hpos : 0 < n.toInt := hmin
    have hmemory : r.addMemory? name n.toInt.toNat loc = some _ :=
      addMemory?_eq_some_iff.mpr ⟨hfits, rfl⟩
    rw [declareMemory, hbehind, ok_bind]
    simp only [Folded.single_eq_ok_iff.mpr hvalues, ok_bind, Symbols.checkType, Value.int, if_true,
      hpos, hmax, and_self, hmemory]

end Resolution

/-! ## The table -/

namespace Declaration

variable {r r' : Resolution} {used : Nat} {row : List Token} {entry : Entry}

/-- What is declared stands in the table. -/
theorem of_declareShape (hsym : r.symbols.Coherent) {shape : Shape}
    (hheads : shape.Heads r.symbols eof rest)
    (h : r.declareShape eof name loc rest shape = .ok (r', used)) :
    ∃ row tail entry, rest = row ++ tail ∧ Declaration r row entry ∧ used = row.length ∧
      r' = entry.addTo r name loc := by
  cases hheads with
  | var ht hscalar _ =>
    obtain ⟨folded, value, hfold, hgiven, rfl, rfl⟩ := Resolution.declareVar_eq_ok_iff.mp h
    obtain ⟨body, tail, rfl, hbody, hused⟩ := Folded.ofTokens_eq_ok_iff.mp hfold
    exact ⟨_ :: body, tail, _, rfl, .var ht hscalar hbody hgiven,
      by simp only [hused, List.length_cons]; omega, rfl⟩
  | const ht hscalar hc hc' =>
    obtain ⟨folded, value, hfold, hvalues, hty, rfl, rfl⟩ :=
      Resolution.declareConst_eq_ok_iff.mp h
    obtain ⟨body, tail, rfl, hbody, hused⟩ := Folded.ofTokens_eq_ok_iff.mp hfold
    rw [hvalues] at hbody
    exact ⟨_ :: _ :: _ :: body, tail, _, rfl, .const ht hscalar hc hc' hbody hty,
      by simp only [hused, List.length_cons]; omega, rfl⟩
  | structVar hc hw hd _ =>
    obtain ⟨folded, values, hfold, hgiven, rfl, rfl⟩ :=
      (Resolution.declareStructVar_eq_ok_iff (hsym.structs _ _ hd)).mp h
    obtain ⟨body, tail, rfl, hbody, hused⟩ := Folded.ofTokens_eq_ok_iff.mp hfold
    exact ⟨_ :: _ :: body, tail, _, rfl, .structVar hc hw hd hbody hgiven,
      by simp only [hused, List.length_cons]; omega, rfl⟩
  | structConst hc hw hd hc' hc'' =>
    obtain ⟨folded, hfold, htypes, rfl, rfl⟩ :=
      (Resolution.declareStructConst_eq_ok_iff (hsym.structs _ _ hd)).mp h
    obtain ⟨body, tail, rfl, hbody, hused⟩ := Folded.ofTokens_eq_ok_iff.mp hfold
    exact ⟨_ :: _ :: _ :: _ :: body, tail, _, rfl, .structConst hc hw hd hc' hc'' hbody htypes,
      by simp only [hused, List.length_cons]; omega, rfl⟩
  | memory hc ht =>
    obtain ⟨folded, n, hfold, hvalues, hmin, hmax, hfits, rfl, rfl⟩ :=
      Resolution.declareMemory_eq_ok_iff.mp h
    obtain ⟨body, tail, htokens, hbody, hused⟩ := Folded.ofTokens_eq_ok_iff.mp hfold
    rw [hvalues] at hbody
    -- The token that told the shape is also the first one of the size.
    obtain ⟨first, more, rfl, _⟩ := hbody.exists_first
    obtain ⟨rfl, rfl⟩ := List.cons.inj htokens
    exact ⟨_ :: _ :: more, tail, _, rfl, .region hc ht hbody hmin hmax hfits,
      by simp only [hused, List.length_cons]; omega, rfl⟩
  | untyped hc hc' hfold =>
    obtain ⟨body, tail, rfl, hbody, hused⟩ := Folded.ofTokens_eq_ok_iff.mp hfold
    rw [Resolution.declareShape, Resolution.declareUntyped_eq] at h
    cases h
    exact ⟨_ :: _ :: body, tail, _, rfl, .untyped hc hc' hbody,
      by simp only [← hused, List.length_cons]; omega, rfl⟩

/-- What stands in the table is declared. -/
theorem exists_shape (hsym : r.symbols.Coherent) (h : Declaration r row entry) (name : String)
    (loc eof : Location) (tail : List Token) :
    ∃ shape, shape.Heads r.symbols eof (row ++ tail) ∧
      r.declareShape eof name loc (row ++ tail) shape =
        .ok (entry.addTo r name loc, row.length) := by
  cases h with
  | var ht hscalar hbody hvalue =>
    refine ⟨_, .var ht hscalar (hbody.startsConst_append tail), ?_⟩
    exact Resolution.declareVar_eq_ok_iff.mpr
      ⟨_, _, hbody.ofTokens_append eof tail, hvalue, rfl, Nat.add_comm _ 1⟩
  | const ht hscalar hc hc' hbody hvalue =>
    refine ⟨_, .const ht hscalar hc hc', ?_⟩
    exact Resolution.declareConst_eq_ok_iff.mpr
      ⟨_, _, hbody.ofTokens_append eof tail, rfl, hvalue, rfl, Nat.add_comm _ 3⟩
  | structVar hc hw hd hbody hvalues =>
    refine ⟨_, .structVar hc hw hd (hbody.startsConst_append tail), ?_⟩
    exact (Resolution.declareStructVar_eq_ok_iff (hsym.structs _ _ hd)).mpr
      ⟨_, _, hbody.ofTokens_append eof tail, hvalues, rfl, Nat.add_comm _ 2⟩
  | structConst hc hw hd hc' hc'' hbody hvalues =>
    refine ⟨_, .structConst hc hw hd hc' hc'', ?_⟩
    exact (Resolution.declareStructConst_eq_ok_iff (hsym.structs _ _ hd)).mpr
      ⟨_, hbody.ofTokens_append eof tail, hvalues, rfl, Nat.add_comm _ 4⟩
  | region hc ht hbody hmin hmax hfits =>
    refine ⟨_, .memory hc ht, ?_⟩
    exact Resolution.declareMemory_eq_ok_iff.mpr
      ⟨_, _, hbody.ofTokens_append eof tail, rfl, hmin, hmax, hfits, rfl, Nat.add_comm _ 1⟩
  | @untyped c c' body value hc hc' hbody =>
    refine ⟨_, .untyped hc hc' (hbody.ofTokens_append eof tail), ?_⟩
    rw [Resolution.declareShape, Resolution.declareUntyped_eq, Nat.add_comm 2]
    rfl

theorem step_eq (hsym : r.symbols.Coherent) (h : Declaration r row entry)
    (hlookup : r.lookup name loc = .ok none) (hfresh : r.symbols.findStruct? name = none)
    (eof : Location) (tail : List Token) :
    r.step eof ⟨.word name, loc⟩ (row ++ tail) = .ok (entry.addTo r name loc, row.length) := by
  obtain ⟨shape, hheads, hdeclare⟩ := h.exists_shape hsym name loc eof tail
  rw [Resolution.step_of_unknown hlookup hfresh, hheads.classify_eq hsym, ok_bind, hdeclare]

end Declaration

theorem Entry.addTo_structs (r : Resolution) (name : String) (loc : Location) (entry : Entry) :
    (entry.addTo r name loc).symbols.structs = r.symbols.structs := by
  cases entry with
  | const | structConst => rfl
  | var | structVar | region =>
    simp only [addTo, Resolution.extendScope]
    split <;> rfl

theorem Entry.length_procs_addTo (r : Resolution) (name : String) (loc : Location) (entry : Entry) :
    (entry.addTo r name loc).symbols.procs.length = r.symbols.procs.length := by
  cases entry with
  | const | structConst => rfl
  | var | structVar | region =>
    simp only [addTo, Resolution.extendScope]
    split <;> simp [Resolution.setProcedure, Symbols.modifyProc]

/-- Declarations are read exactly by their table. At every point of a resolution, a word that has no
meaning and is not the name of a struct is declared as something other than a struct or a procedure
if and only if the tokens behind it start with a row of the table. Then the entry of this row is
added to the tables, nothing else changes, and the tokens of the row are used. -/
theorem declarations_follow_table {s : TokenStream} {r r' : Resolution} {ts : List Token}
    (hr : Resolution.Reaches s.eof {} s.tokens r ts) {name : String} {loc : Location}
    (hlookup : r.lookup name loc = .ok none) (hfresh : r.symbols.findStruct? name = none)
    (eof : Location) (rest : List Token) (used : Nat) :
    (r.step eof ⟨.word name, loc⟩ rest = .ok (r', used) ∧
      r'.symbols.structs.length = r.symbols.structs.length ∧
      r'.symbols.procs.length = r.symbols.procs.length) ↔
    ∃ row tail entry, rest = row ++ tail ∧ Declaration r row entry ∧ used = row.length ∧
      r' = entry.addTo r name loc := by
  have hsym := hr.coherent .empty .empty
  constructor
  · rintro ⟨hstep, hstructs, hprocs⟩
    rw [Resolution.step_of_unknown hlookup hfresh] at hstep
    obtain ⟨shape, hshape, hdeclare⟩ := bind_eq_ok hstep
    refine Declaration.of_declareShape hsym (Shape.heads_of_classify hsym hshape ?_ ?_) hdeclare
    · rintro rfl
      obtain ⟨_, members, _, _, rfl⟩ := Resolution.declareStruct_eq hdeclare
      simp [Symbols.addStruct] at hstructs
    · rintro rfl
      obtain ⟨_, p, _, _, _, _, _, rfl⟩ := Resolution.declareProc_eq_ok hdeclare
      simp [Symbols.addProc] at hprocs
  · rintro ⟨row, tail, entry, rfl, hrow, rfl, rfl⟩
    refine ⟨hrow.step_eq hsym hlookup hfresh eof tail, ?_, entry.length_procs_addTo r name loc⟩
    rw [entry.addTo_structs]

def tableText : String :=
  "S struct a int 4 b bool end K :: 3 end f :: x int end end"

theorem local_declarations_are_read :
    ∃ s r ts d, TokenStream.ofSource "table" tableText = .ok s ∧
      Resolution.Reaches s.eof {} s.tokens r ts ∧ r.current = some 0 ∧ r.symbols.structs = [d] ∧
      d.name = "S" ∧ ∀ tail,
        r.step s.eof ⟨.word "y", s.eof⟩
          ([.keyword .colon, .word "S", .keyword .endKw].map (⟨·, s.eof⟩) ++ tail) =
          .ok ((Entry.structVar 0 d (d.members.map (·.initial))).addTo r "y" s.eof, 3) ∧
        r.step s.eof ⟨.word "y", s.eof⟩
          ([.keyword .colon, .word "K", .int 2, .word "*", .keyword .endKw].map (⟨·, s.eof⟩) ++
            tail) = .ok ((Entry.region 8).addTo r "y" s.eof, 5) := by
  obtain ⟨s, r, ts, hs, hr, hcurrent, hlookup, hfresh, hstructs, hconst, hsize, hroom⟩ :=
    Resolution.exists_point (x := TokenStream.ofSource "table" tableText)
      (P := fun s r => r.current = some 0 ∧ r.lookup "y" s.eof = .ok none ∧
        r.symbols.findStruct? "y" = none ∧ r.symbols.structs.map (·.name) = ["S"] ∧
        r.symbols.consts.map (·.name) = ["K"] ∧
        Fold.evaluate r.symbols [] ([.word "K", .int 2, .word "*"].map (⟨·, s.eof⟩)) =
          .ok [.int 6] ∧ r.ownMemory.size = 0)
      4 (by decide +kernel)
  obtain ⟨d, hd, hname⟩ := List.map_eq_singleton_iff.mp hstructs
  obtain ⟨c, hc, hcname⟩ := List.map_eq_singleton_iff.mp hconst
  refine ⟨s, r, ts, d, hs, hr, hcurrent, hd, hname, fun tail => ⟨?_, ?_⟩⟩
  · have hrow : Declaration r ([.keyword .colon, .word "S", .keyword .endKw].map (⟨·, s.eof⟩))
        (.structVar 0 d (d.members.map (·.initial))) :=
      .structVar rfl (hname ▸ rfl) (by rw [hd]; rfl)
        (.closed (e := []) (by simp [HasEnd]) rfl rfl) (.inr ⟨rfl, rfl⟩)
    exact ((declarations_follow_table hr hlookup hfresh s.eof _ 3).mpr
      ⟨_, tail, _, rfl, hrow, rfl, rfl⟩).1
  · have hstarts : StartsSize r.symbols (.word "K") := by
      rw [← hcname]
      exact .const (by simp [hc]) (by simp [hd, hname, hcname])
    have hrow : Declaration r
        ([.keyword .colon, .word "K", .int 2, .word "*", .keyword .endKw].map (⟨·, s.eof⟩))
        (.region 8) :=
      .region (n := 6) rfl hstarts (.closed (Fold.not_hasEnd_of_evaluate hsize) rfl hsize)
        (by decide) (by decide) (by rw [hroom]; decide)
    exact ((declarations_follow_table hr hlookup hfresh s.eof _ 5).mpr
      ⟨_, tail, _, rfl, hrow, rfl, rfl⟩).1

end StackEffect
