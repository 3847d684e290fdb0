import StackEffect.Proofs.Finding
import StackEffect.Proofs.Retention

/-! # Words for variables

Variables are looked up last. So a word stands for a variable where nothing else has it, and where
it does, the variable is the one that is seen under the name that the word asks for: one of the
procedure comes before a global one, and in either scope a struct variable before a plain one.
-/

namespace StackEffect

/-! ## The entry that is found under a name -/

namespace Named

variable {α : Type} [Named α] {wanted : String} {l : List α} {i j : Nat} {a b : α}

/-- No entry before the one that is found first has the name. -/
theorem first?_le (h : first? wanted l = some (i, a)) (hj : l[j]? = some b)
    (hb : name b = wanted) : i ≤ j := by
  induction l generalizing i j with
  | nil => cases h
  | cons c l ih =>
    unfold first? at h
    split at h
    · cases h
      exact Nat.zero_le j
    · rename_i hc
      obtain ⟨found, hfound, heq⟩ := Option.map_eq_some_iff.mp h
      cases heq
      cases j with
      | zero =>
        cases hj
        exact absurd hb hc
      | succ j => exact Nat.succ_le_succ (ih hfound hj)

/-- No entry behind the one that is found last has the name. -/
theorem le_last? (h : last? wanted l = some (i, a)) (hj : l[j]? = some b)
    (hb : name b = wanted) : j ≤ i := by
  induction l generalizing i j with
  | nil => cases h
  | cons c l ih =>
    unfold last? at h
    split at h
    · rename_i found hfound
      cases h
      cases j with
      | zero => exact Nat.zero_le _
      | succ j => exact Nat.succ_le_succ (ih hfound hj)
    · rename_i hnone
      cases j with
      | zero => exact Nat.zero_le _
      | succ j => exact absurd hb (last?_eq_none.mp hnone b (List.mem_of_getElem? hj))

theorem first?_of_le (hget : l[i]? = some a) (hname : name a = wanted)
    (hle : ∀ j b, l[j]? = some b → name b = wanted → i ≤ j) : first? wanted l = some (i, a) := by
  cases h : first? wanted l with
  | none => exact absurd hname (first?_eq_none.mp h a (List.mem_of_getElem? hget))
  | some found =>
    have hfound := getElem?_of_first? h
    have hi : found.1 = i :=
      Nat.le_antisymm (first?_le h hget hname) (hle _ _ hfound (name_of_first? h))
    rw [hi, hget] at hfound
    rw [← hi, Option.some.inj hfound]

theorem last?_of_le (hget : l[i]? = some a) (hname : name a = wanted)
    (hle : ∀ j b, l[j]? = some b → name b = wanted → j ≤ i) : last? wanted l = some (i, a) := by
  cases h : last? wanted l with
  | none => exact absurd hname (last?_eq_none.mp h a (List.mem_of_getElem? hget))
  | some found =>
    have hfound := getElem?_of_last? h
    have hi : found.1 = i :=
      Nat.le_antisymm (hle _ _ hfound (name_of_last? h)) (le_last? h hget hname)
    rw [hi, hget] at hfound
    rw [← hi, Option.some.inj hfound]

/-- Where all names are different, an entry is known by its name. -/
theorem index_eq_of_names (hnames : (l.map name).Nodup) (hi : l[i]? = some a) (hj : l[j]? = some b)
    (hname : name a = name b) : i = j := by
  have hlt : i < (l.map name).length := by simpa using (List.getElem?_eq_some_iff.mp hi).1
  apply (List.getElem?_inj hlt hnames).mp
  rw [List.getElem?_map, List.getElem?_map, hi, hj, Option.map_some, Option.map_some, hname]

end Named

/-- Structs have different names, so the struct that is found under a name is the one that has it.
-/
theorem Symbols.Coherent.findStruct?_eq_some_iff {s : Symbols} (h : s.Coherent) {name : String}
    {id : Nat} {d : StructDef} :
    s.findStruct? name = some (id, d) ↔ s.structs[id]? = some d ∧ d.name = name := by
  constructor
  · intro hfind
    exact ⟨Named.getElem?_of_last? hfind, Named.name_of_last? hfind⟩
  · rintro ⟨hd, rfl⟩
    apply Named.last?_of_le hd rfl
    intro j e he hsame
    exact (Named.index_eq_of_names h.names he hd hsame).le

/-! ## Where a word asks for a variable -/

def OpKind.access? : OpKind → Option Access
  | loadVar _ _ => some .load
  | storeVar _ _ => some .store
  | varAddr _ _ => some .addr
  | _ => none

theorem Value.access?_of_pushes (v : Value) : ∀ kind ∈ v.pushes, kind.access? = none := by
  unfold pushes
  split <;> simp [OpKind.access?]

namespace Access

theorem access?_scalarOp (access : Access) (ref : Ref) (ty : Ty) :
    (access.scalarOp ref ty).access? = some access := by
  cases access <;> rfl

theorem access?_of_structOps (access : Access) (scope : Scope) (v : Aggregate)
    (members : List Member) :
    ∀ kind ∈ access.structOps scope v members, kind.access? = some access := by
  intro kind hkind
  cases access with
  | load | store | addr =>
    obtain ⟨_, _, rfl⟩ := List.mem_map.mp hkind
    rfl

end Access

namespace Resolution

/-- Nothing that is looked up before the variables has the word. -/
structure Unclaimed (r : Resolution) (w : String) : Prop where
  structConst : r.symbols.findStructConst? w = none
  binding : r.binding? w = none
  region : r.region? w = none
  proc : r.symbols.findProc? w = none
  const : r.symbols.findConst? w = none

def NoneOwn (r : Resolution) (name : String) : Prop :=
  ∀ id p, r.procedure? = some (id, p) → p.findLocalStruct? name = none ∧ p.findLocal? name = none

def SeesStruct (r : Resolution) (name : String) (v : Aggregate) : Scope → Prop
  | .frame id => ∃ p i, r.procedure? = some (id, p) ∧ p.findLocalStruct? name = some (i, v)
  | .global => r.NoneOwn name ∧ ∃ i, r.symbols.findGlobalStruct? name = some (i, v)

def SeesVar (r : Resolution) (name : String) (i : Nat) (v : Scalar) : Scope → Prop
  | .frame id => ∃ p, r.procedure? = some (id, p) ∧ p.findLocalStruct? name = none ∧
      p.findLocal? name = some (i, v)
  | .global => r.NoneOwn name ∧ r.symbols.findGlobalStruct? name = none ∧
      r.symbols.findGlobal? name = some (i, v)

instance (w : String) : Decidable (IsName w) :=
  decidable_of_iff (memberAccess? w = none ∧ primitive? w = none ∧ stripSigil? '#' w = none)
    ⟨fun h => ⟨h.1, h.2.1, h.2.2⟩, fun h => ⟨h.member, h.primitive, h.cast⟩⟩

instance (r : Resolution) (w : String) : Decidable (r.Unclaimed w) :=
  decidable_of_iff (r.symbols.findStructConst? w = none ∧ r.binding? w = none ∧
      r.region? w = none ∧ r.symbols.findProc? w = none ∧ r.symbols.findConst? w = none)
    ⟨fun h => ⟨h.1, h.2.1, h.2.2.1, h.2.2.2.1, h.2.2.2.2⟩,
      fun h => ⟨h.structConst, h.binding, h.region, h.proc, h.const⟩⟩

instance (r : Resolution) (name : String) : Decidable (r.NoneOwn name) :=
  decidable_of_iff (∀ found ∈ r.procedure?,
      found.2.findLocalStruct? name = none ∧ found.2.findLocal? name = none)
    ⟨fun h id p hp => h (id, p) hp, fun h found hfound => h found.1 found.2 hfound⟩

instance (r : Resolution) (name : String) (v : Aggregate) :
    (scope : Scope) → Decidable (r.SeesStruct name v scope)
  | .global => decidable_of_iff (r.NoneOwn name ∧
      (r.symbols.findGlobalStruct? name).map (·.2) = some v) (by simp [SeesStruct])
  | .frame id => decidable_of_iff (∃ found ∈ r.procedure?, found.1 = id ∧
      (found.2.findLocalStruct? name).map (·.2) = some v) (by simp [SeesStruct])

variable {r : Resolution} {w name : String} {access : Access} {scope : Scope} {m : Meaning}

theorem Unclaimed.lookup (h : r.Unclaimed w) (hname : IsName w) (loc : Location) :
    r.lookup w loc = .ok (r.namedVar? w) :=
  lookup_eq_namedVar? hname h.binding h.structConst h.region h.proc h.const loc

theorem SeesStruct.mem {v : Aggregate} (h : r.SeesStruct name v scope) :
    v ∈ r.symbols.structVars scope := by
  cases scope with
  | global =>
    obtain ⟨_, i, hv⟩ := h
    exact List.mem_of_getElem? (Named.getElem?_of_last? hv)
  | frame id =>
    obtain ⟨p, i, hproc, hv⟩ := h
    rw [(scope_of_procedure hproc).2.2.1]
    exact List.mem_of_getElem? (Named.getElem?_of_first? hv)

theorem SeesStruct.namedVar? {v : Aggregate} (h : r.SeesStruct name v scope)
    (hw : Access.ofWord w = (access, name)) :
    r.namedVar? w =
      some ⟨access.structOps scope v (r.symbols.members v.struct), some v.loc⟩ := by
  simp only [Resolution.namedVar?, hw]
  cases scope with
  | global =>
    obtain ⟨hown, i, hv⟩ := h
    rw [(localVar?_eq_none_iff access).mpr hown, Option.none_or, globalVar?_of_struct hv]
  | frame id =>
    obtain ⟨p, i, hproc, hv⟩ := h
    rw [localVar?_of_struct hproc hv, Option.some_or]

theorem SeesVar.namedVar? {i : Nat} {v : Scalar} (h : r.SeesVar name i v scope)
    (hw : Access.ofWord w = (access, name)) :
    r.namedVar? w = some ⟨[access.scalarOp ⟨scope, i⟩ v.value.ty], some v.loc⟩ := by
  simp only [Resolution.namedVar?, hw]
  cases scope with
  | global =>
    obtain ⟨hown, hstruct, hv⟩ := h
    rw [(localVar?_eq_none_iff access).mpr hown, Option.none_or, globalVar?_of_scalar hstruct hv]
  | frame id =>
    obtain ⟨p, hproc, hstruct, hv⟩ := h
    rw [localVar?_of_scalar hproc hstruct hv, Option.some_or]

/-- A word for a variable asks for a struct variable or for one of a single cell. -/
theorem namedVar?_cases (hw : Access.ofWord w = (access, name)) (hm : r.namedVar? w = some m) :
    (∃ scope v, r.SeesStruct name v scope ∧
      m = ⟨access.structOps scope v (r.symbols.members v.struct), some v.loc⟩) ∨
    ∃ scope i v, r.SeesVar name i v scope ∧
      m = ⟨[access.scalarOp ⟨scope, i⟩ v.value.ty], some v.loc⟩ := by
  simp only [namedVar?, hw] at hm
  rcases Option.or_eq_some_iff.mp hm with hm | ⟨hnone, hm⟩
  · obtain ⟨⟨id, p⟩, hproc, hm⟩ := Option.bind_eq_some_iff.mp hm
    rcases Option.or_eq_some_iff.mp hm with hm | ⟨hstruct, hm⟩
    · obtain ⟨⟨i, v⟩, hv, rfl⟩ := Option.map_eq_some_iff.mp hm
      exact .inl ⟨.frame id, v, ⟨p, i, hproc, hv⟩, rfl⟩
    · obtain ⟨⟨i, v⟩, hv, rfl⟩ := Option.map_eq_some_iff.mp hm
      exact .inr ⟨.frame id, i, v, ⟨p, hproc, Option.map_eq_none_iff.mp hstruct, hv⟩, rfl⟩
  · have hown : r.NoneOwn name := (localVar?_eq_none_iff access).mp hnone
    rcases Option.or_eq_some_iff.mp hm with hm | ⟨hstruct, hm⟩
    · obtain ⟨⟨i, v⟩, hv, rfl⟩ := Option.map_eq_some_iff.mp hm
      exact .inl ⟨.global, v, ⟨hown, i, hv⟩, rfl⟩
    · obtain ⟨⟨i, v⟩, hv, rfl⟩ := Option.map_eq_some_iff.mp hm
      exact .inr ⟨.global, i, v, ⟨hown, Option.map_eq_none_iff.mp hstruct, hv⟩, rfl⟩

/-- A word does to variables what it asks for. -/
theorem access?_of_namedVar? (hm : r.namedVar? w = some m) {kind : OpKind} (hkind : kind ∈ m.ops) :
    kind.access? = some (Access.ofWord w).1 := by
  rcases namedVar?_cases rfl hm with ⟨scope, v, _, rfl⟩ | ⟨scope, i, v, _, rfl⟩
  · exact Access.access?_of_structOps _ _ _ _ kind hkind
  · rw [List.mem_singleton.mp hkind]
    exact Access.access?_scalarOp _ _ _

/-- What is looked up before casts does not operate on variables. -/
theorem access?_of_early {kind : OpKind} (hkind : kind ∈ m.ops)
    (hm : (r.structConst? w).or ((memberAccess? w).or ((r.binding? w).or (primitive? w))) =
      some m) : kind.access? = none := by
  simp only [Option.or_eq_some_iff] at hm
  rcases hm with hm | ⟨_, hm | ⟨_, hm | ⟨_, hm⟩⟩⟩
  · obtain ⟨⟨i, c⟩, _, rfl⟩ := Option.map_eq_some_iff.mp hm
    obtain ⟨v, _, hkind⟩ := List.mem_flatMap.mp hkind
    exact v.access?_of_pushes kind hkind
  · obtain ⟨⟨access, name⟩, _, rfl⟩ := Option.map_eq_some_iff.mp hm
    rw [List.mem_singleton.mp hkind]
    rfl
  · obtain ⟨⟨id, p⟩, _, hm⟩ := Option.bind_eq_some_iff.mp hm
    obtain ⟨depth, _, rfl⟩ := Option.map_eq_some_iff.mp hm
    rw [List.mem_singleton.mp hkind]
    rfl
  · obtain ⟨i, _, rfl⟩ := Option.map_eq_some_iff.mp hm
    rw [List.mem_singleton.mp hkind]
    rfl

theorem access?_of_region? {kind : OpKind} (hkind : kind ∈ m.ops) (hm : r.region? w = some m) :
    kind.access? = none := by
  rcases Option.or_eq_some_iff.mp hm with hm | ⟨_, hm⟩
  · obtain ⟨⟨id, p⟩, _, hm⟩ := Option.bind_eq_some_iff.mp hm
    obtain ⟨⟨i, region⟩, _, rfl⟩ := Option.map_eq_some_iff.mp hm
    rw [List.mem_singleton.mp hkind]
    rfl
  · obtain ⟨⟨i, region⟩, _, rfl⟩ := Option.map_eq_some_iff.mp hm
    rw [List.mem_singleton.mp hkind]
    rfl

/-- A word operates on a variable only where nothing else has it. -/
theorem unclaimed_of_lookup {loc : Location} (hm : r.lookup w loc = .ok (some m)) {kind : OpKind}
    (hkind : kind ∈ m.ops) (haccess : kind.access? = some access) :
    IsName w ∧ r.Unclaimed w ∧ r.namedVar? w = some m := by
  unfold lookup at hm
  split at hm
  · rename_i found hfound
    cases hm
    rw [access?_of_early hkind hfound] at haccess
    cases haccess
  · rename_i hearly
    simp only [Option.or_eq_none_iff] at hearly
    obtain ⟨hstructConst, hmember, hbinding, hprimitive⟩ := hearly
    split at hm
    · split at hm
      · cases hm
        rw [List.mem_singleton.mp hkind] at haccess
        cases haccess
      · cases hm
    · rename_i hcast
      have hfound := Except.ok.inj hm
      simp only [Option.or_eq_some_iff] at hfound
      rcases hfound with hm | ⟨hregion, hm | ⟨hcall, hm | ⟨hconst, hm⟩⟩⟩
      · rw [access?_of_region? hkind hm] at haccess
        cases haccess
      · obtain ⟨⟨id, p⟩, _, rfl⟩ := Option.map_eq_some_iff.mp hm
        rw [List.mem_singleton.mp hkind] at haccess
        cases haccess
      · obtain ⟨⟨i, c⟩, _, rfl⟩ := Option.map_eq_some_iff.mp hm
        rw [c.value.access?_of_pushes kind hkind] at haccess
        cases haccess
      · exact ⟨⟨hmember, hprimitive, hcast⟩, ⟨Option.map_eq_none_iff.mp hstructConst, hbinding,
          hregion, Option.map_eq_none_iff.mp hcall, Option.map_eq_none_iff.mp hconst⟩, hm⟩

/-- A word asks for access to a struct variable: nothing else has the word, and the variable is the
one seen under the name that the word asks for. -/
structure AsksFor (r : Resolution) (w : String) (access : Access) (scope : Scope) (v : Aggregate) :
    Prop where
  isName : IsName w
  unclaimed : r.Unclaimed w
  word : Access.ofWord w = (access, v.name)
  seen : r.SeesStruct v.name v scope

instance (r : Resolution) (w : String) (access : Access) (scope : Scope) (v : Aggregate) :
    Decidable (r.AsksFor w access scope v) :=
  decidable_of_iff (IsName w ∧ r.Unclaimed w ∧ Access.ofWord w = (access, v.name) ∧
      r.SeesStruct v.name v scope)
    ⟨fun h => ⟨h.1, h.2.1, h.2.2.1, h.2.2.2⟩, fun h => ⟨h.isName, h.unclaimed, h.word, h.seen⟩⟩

theorem AsksFor.lookup {v : Aggregate} (h : r.AsksFor w access scope v) (loc : Location) :
    r.lookup w loc =
      .ok (some ⟨access.structOps scope v (r.symbols.members v.struct), some v.loc⟩) := by
  rw [h.unclaimed.lookup h.isName, h.seen.namedVar? h.word]

end Resolution

end StackEffect
