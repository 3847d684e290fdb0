import StackEffect.Proofs.Lexing
import StackEffect.Proofs.Persistence
import StackEffect.Proofs.VariableWords

/-! # Names that lose their meaning

An entry lies at the place of the token that declares it, and the tokens of a text lie at different
places. So a word that stands for something declared at the same place as before stands for an entry
that was there before, and nothing that was added since then has taken its name over. The condition
under which a name keeps its meaning is therefore exact.
-/

namespace StackEffect

structure Mark where
  name : String
  loc : Location

instance : Named Mark := ⟨Mark.name⟩

namespace Named

variable {α : Type} [Named α] {wanted : String}

theorem last?_map_mark {f : α → Mark} (hf : ∀ a, (f a).name = name a) (l : List α) :
    last? wanted (l.map f) = (last? wanted l).map fun found => (found.1, f found.2) := by
  induction l with
  | nil => rfl
  | cons a l ih =>
    have hname : name (f a) = name a := hf a
    rw [List.map_cons, last?, last?, ih, hname]
    cases last? wanted l with
    | some found => rfl
    | none => by_cases ha : name a = wanted <;> simp [ha]

/-- If what is found is not new, nothing new has the name. -/
theorem last?_of_append_old {l new : List Mark} {i : Nat} {a : Mark}
    (h : last? wanted (l ++ new) = some (i, a)) (hold : ∀ b ∈ new, b.loc ≠ a.loc) :
    (∀ b ∈ new, b.name ≠ wanted) ∧ last? wanted l = some (i, a) := by
  have hnew : ∀ b ∈ new, b.name ≠ wanted := by
    intro b hb hname
    obtain ⟨j, hj⟩ := List.getElem?_of_mem hb
    have hlast : (l ++ new)[l.length + j]? = some b := by
      rw [List.getElem?_append_right (Nat.le_add_right _ _), Nat.add_sub_cancel_left, hj]
    have hle : l.length ≤ i := (Nat.le_add_right _ _).trans (le_last? h hlast hname)
    have hfound := getElem?_of_last? h
    rw [List.getElem?_append_right hle] at hfound
    exact hold a (List.mem_of_getElem? hfound) rfl
  exact ⟨hnew, by rw [← h, last?_append_of_ne l hnew]⟩

end Named

namespace Symbols

def marks (s : Symbols) : TableKind → List Mark
  | .structs => s.structs.map fun d => ⟨d.name, d.loc⟩
  | .consts => s.consts.map fun c => ⟨c.name, c.loc⟩
  | .structConsts => s.structConsts.map fun c => ⟨c.name, c.loc⟩
  | .globals => s.globals.map fun v => ⟨v.name, v.loc⟩
  | .globalStructs => s.globalStructs.map fun v => ⟨v.name, v.loc⟩
  | .memory => s.memory.regions.map fun r => ⟨r.name, r.loc⟩
  | .procs => s.procs.map fun p => ⟨p.name, p.loc⟩

def placeOf? (s : Symbols) (table : TableKind) (name : String) : Option Location :=
  (Named.last? name (s.marks table)).map (·.2.loc)

/-- The place of what a word is declared as at top level. -/
def declaredAt? (s : Symbols) (word : String) : Option Location :=
  (s.placeOf? .structConsts word).or <| (s.placeOf? .memory word).or <|
    (s.placeOf? .procs word).or <| (s.placeOf? .consts word).or <|
      (s.placeOf? .globalStructs (Access.ofWord word).2).or
        (s.placeOf? .globals (Access.ofWord word).2)

variable {s t : Symbols} {table : TableKind} {name word : String} {loc place : Location}
  {m : Meaning}

theorem placeOf?_eq (s : Symbols) (table : TableKind) (name : String) :
    s.placeOf? table name =
      match table with
      | .structs => (s.findStruct? name).map (·.2.loc)
      | .consts => (s.findConst? name).map (·.2.loc)
      | .structConsts => (s.findStructConst? name).map (·.2.loc)
      | .globals => (s.findGlobal? name).map (·.2.loc)
      | .globalStructs => (s.findGlobalStruct? name).map (·.2.loc)
      | .memory => (s.findMemory? name).map (·.2.loc)
      | .procs => (s.findProc? name).map (·.2.loc) := by
  unfold placeOf?
  cases table <;> rw [marks, Named.last?_map_mark fun _ => rfl, Option.map_map] <;> rfl

theorem declaredAs?_eq (s : Symbols) (word : String) :
    s.declaredAs? word =
      if (s.placeOf? .structConsts word).isSome then some .structConsts
      else if (s.placeOf? .memory word).isSome then some .memory
      else if (s.placeOf? .procs word).isSome then some .procs
      else if (s.placeOf? .consts word).isSome then some .consts
      else if (s.placeOf? .globalStructs (Access.ofWord word).2).isSome then some .globalStructs
      else if (s.placeOf? .globals (Access.ofWord word).2).isSome then some .globals
      else none := by
  simp only [declaredAs?, placeOf?_eq, Option.isSome_map]

/-- What a word stands for that is declared comes from the tables alone. -/
theorem entries_of_lookup (hm : s.topLevel.lookup word loc = .ok (some m))
    (hdeclared : m.declared.isSome) :
    (s.topLevel.structConst? word).or ((s.topLevel.region? word).or ((s.topLevel.call? word).or
      ((s.topLevel.const? word).or (s.topLevel.namedVar? word)))) = some m := by
  unfold Resolution.lookup at hm
  cases hc : s.topLevel.structConst? word with
  | some found => simpa [hc] using hm
  | none =>
    -- Members, primitives and casts are not declared, and nothing is bound at top level.
    have hmember : Resolution.memberAccess? word = none := by
      cases hfound : Resolution.memberAccess? word with
      | none => rfl
      | some found =>
        obtain ⟨_, _, rfl⟩ := Option.map_eq_some_iff.mp hfound
        simp only [hc, hfound, Option.none_or, Option.some_or] at hm
        cases hm
        cases hdeclared
    have hprimitive : Resolution.primitive? word = none := by
      cases hfound : Resolution.primitive? word with
      | none => rfl
      | some found =>
        obtain ⟨_, _, rfl⟩ := Option.map_eq_some_iff.mp hfound
        have hbinding : s.topLevel.binding? word = none := rfl
        simp only [hc, hmember, hbinding, hfound, Option.none_or] at hm
        cases hm
        cases hdeclared
    have hbinding : s.topLevel.binding? word = none := rfl
    simp only [hc, hmember, hbinding, hprimitive, Option.none_or] at hm ⊢
    split at hm
    · split at hm
      · cases hm
        cases hdeclared
      · cases hm
    · exact Except.ok.inj hm

theorem declared_namedVar? (s : Symbols) (word : String) :
    (s.topLevel.namedVar? word).bind Meaning.declared =
      ((s.findGlobalStruct? (Access.ofWord word).2).map (·.2.loc)).or
        ((s.findGlobal? (Access.ofWord word).2).map (·.2.loc)) := by
  show (s.topLevel.globalVar? (Access.ofWord word).1 (Access.ofWord word).2).bind _ = _
  simp only [Resolution.globalVar?, topLevel]
  cases s.findGlobalStruct? (Access.ofWord word).2 with
  | some _ => rfl
  | none => cases s.findGlobal? (Access.ofWord word).2 <;> rfl

/-- A word that stands for something declared is declared at the place of the entry that is found.
-/
theorem declared_eq_declaredAt? (hm : s.topLevel.lookup word loc = .ok (some m))
    (hdeclared : m.declared.isSome) : m.declared = s.declaredAt? word := by
  have hentries := congrArg (Option.bind · Meaning.declared) (entries_of_lookup hm hdeclared)
  rw [Option.bind_some] at hentries
  rw [← hentries]
  simp only [declaredAt?, placeOf?_eq, Resolution.structConst?, Resolution.region?,
    Resolution.call?, Resolution.const?, topLevel]
  cases s.findStructConst? word with
  | some _ => rfl
  | none =>
    cases s.findMemory? word with
    | some _ => rfl
    | none =>
      cases s.findProc? word with
      | some _ => rfl
      | none =>
        cases s.findConst? word with
        | some _ => rfl
        | none => exact declared_namedVar? s word

/-- The entry that a word is declared as lies at the place where it is declared. -/
theorem exists_mark_of_declaredAt? (h : s.declaredAt? word = some place) :
    ∃ table, ∃ a ∈ s.marks table, a.loc = place := by
  have hfound (table : TableKind) (name : String) (h : s.placeOf? table name = some place) :
      ∃ table, ∃ a ∈ s.marks table, a.loc = place := by
    obtain ⟨⟨i, a⟩, ha, rfl⟩ := Option.map_eq_some_iff.mp h
    exact ⟨table, a, List.mem_of_getElem? (Named.getElem?_of_last? ha), rfl⟩
  unfold declaredAt? at h
  simp only [Option.or_eq_some_iff] at h
  rcases h with h | ⟨_, h | ⟨_, h | ⟨_, h | ⟨_, h | ⟨_, h⟩⟩⟩⟩⟩ <;> exact hfound _ _ h

/-- The entries for the members of new struct constants or variables are new as well. -/
def EntriesNew (aggregates : Symbols → List Aggregate) (entries : Symbols → List Scalar)
    (s t : Symbols) : Prop :=
  ∀ c ∈ (aggregates t).drop (aggregates s).length, ∀ name ∈ t.entryNames c,
    ∃ e ∈ (entries t).drop (entries s).length, e.name = name

/-- How tables grow, seen from a place of before: nothing new lies there. -/
structure GrowsBeside (s t : Symbols) (place : Location) : Prop where
  marks : ∀ table, ∃ new, t.marks table = s.marks table ++ new ∧ ∀ b ∈ new, b.loc ≠ place
  consts : EntriesNew structConsts consts s t
  vars : EntriesNew globalStructs globals s t

namespace GrowsBeside

/-- What is found at the place of before was found before, and nothing new has the name. -/
theorem old (h : s.GrowsBeside t place) (hplace : t.placeOf? table name = some place) :
    (∀ b ∈ (t.marks table).drop (s.marks table).length, b.name ≠ name) ∧
      (s.placeOf? table name).isSome := by
  obtain ⟨new, hnew, hbeside⟩ := h.marks table
  obtain ⟨⟨i, a⟩, hfound, rfl⟩ := Option.map_eq_some_iff.mp hplace
  rw [hnew] at hfound
  obtain ⟨hnames, hold⟩ := Named.last?_of_append_old hfound hbeside
  rw [hnew, List.drop_left]
  exact ⟨hnames, by simp [placeOf?, hold]⟩

theorem absent (h : s.GrowsBeside t place) (hnone : t.placeOf? table name = none) :
    (∀ b ∈ t.marks table, b.name ≠ name) ∧ s.placeOf? table name = none := by
  have hnames := Named.last?_eq_none.mp (Option.map_eq_none_iff.mp hnone)
  obtain ⟨new, hnew, _⟩ := h.marks table
  refine ⟨hnames, Option.map_eq_none_iff.mpr (Named.last?_eq_none.mpr fun a ha => ?_)⟩
  exact hnames a (hnew ▸ List.mem_append_left new ha)

theorem constsSpare (h : s.GrowsBeside t place)
    (hnew : ∀ b ∈ (t.marks .consts).drop (s.marks .consts).length, b.name ≠ name) :
    s.ConstsSpare t name := by
  intro c hc hmem
  obtain ⟨e, he, hname⟩ := h.consts c hc name hmem
  rw [Symbols.marks, Symbols.marks, List.length_map, ← List.map_drop] at hnew
  exact hnew _ (List.mem_map_of_mem he) hname

theorem structVarsSpare
    (hnew : ∀ b ∈ (t.marks .globalStructs).drop (s.marks .globalStructs).length, b.name ≠ name) :
    s.StructVarsSpare t name := by
  intro _ v hv
  rw [Symbols.marks, Symbols.marks, List.length_map, ← List.map_drop] at hnew
  exact hnew _ (List.mem_map_of_mem hv)

theorem varsSpare (h : s.GrowsBeside t place)
    (hnew : ∀ b ∈ (t.marks .globals).drop (s.marks .globals).length, b.name ≠ name) :
    s.MembersSpare t name ∧ s.VarsSpare t name := by
  rw [Symbols.marks, Symbols.marks, List.length_map, ← List.map_drop] at hnew
  refine ⟨fun v hv hmem => ?_, fun _ v hv => hnew _ (List.mem_map_of_mem hv)⟩
  obtain ⟨e, he, hname⟩ := h.vars v hv name hmem
  exact hnew _ (List.mem_map_of_mem he) hname

/-- A word that is declared where it was before has been spared. -/
theorem spares (h : s.GrowsBeside t place) (hplace : t.declaredAt? word = some place) :
    s.Spares t word := by
  unfold declaredAt? at hplace
  rw [Spares, declaredAs?_eq]
  -- In the order of the look-up, an entry is found at its old place or is missing, now and before.
  obtain hstruct | ⟨hstruct, hplace⟩ := Option.or_eq_some_iff.mp hplace
  · rw [if_pos (h.old hstruct).2]
    trivial
  rw [(h.absent hstruct).2, Option.isSome_none, if_neg Bool.false_ne_true]
  obtain hregion | ⟨hregion, hplace⟩ := Option.or_eq_some_iff.mp hplace
  · rw [if_pos (h.old hregion).2]
    trivial
  rw [(h.absent hregion).2, Option.isSome_none, if_neg Bool.false_ne_true]
  obtain hproc | ⟨hproc, hplace⟩ := Option.or_eq_some_iff.mp hplace
  · rw [if_pos (h.old hproc).2]
    trivial
  rw [(h.absent hproc).2, Option.isSome_none, if_neg Bool.false_ne_true]
  obtain hconst | ⟨hconst, hplace⟩ := Option.or_eq_some_iff.mp hplace
  · have hold := h.old hconst
    rw [if_pos hold.2]
    exact h.constsSpare hold.1
  have hnoConst := h.absent hconst
  have hconsts := h.constsSpare fun b hb => hnoConst.1 b (List.mem_of_mem_drop hb)
  rw [hnoConst.2, Option.isSome_none, if_neg Bool.false_ne_true]
  obtain hstructVar | ⟨hstructVar, hplace⟩ := Option.or_eq_some_iff.mp hplace
  · have hold := h.old hstructVar
    rw [if_pos hold.2]
    exact ⟨hconsts, structVarsSpare hold.1⟩
  have hnoStruct := h.absent hstructVar
  have hold := h.old hplace
  rw [hnoStruct.2, Option.isSome_none, if_neg Bool.false_ne_true, if_pos hold.2]
  exact ⟨hconsts, structVarsSpare fun b hb => hnoStruct.1 b (List.mem_of_mem_drop hb),
    h.varsSpare hold.1⟩

end GrowsBeside

/-! ## Places of entries -/

theorem marks_modifyProc {id : Nat} {p p' : Procedure} (hp : s.procs[id]? = some p)
    (hname : p'.name = p.name) (hloc : p'.loc = p.loc) (table : TableKind) :
    (s.modifyProc id fun _ => p').marks table = s.marks table := by
  cases table with
  | procs =>
    show (s.procs.modify id fun _ => p').map _ = s.procs.map _
    ext j : 1
    rw [List.getElem?_map, List.getElem?_map, List.getElem?_modify]
    by_cases hj : id = j
    · subst hj
      simp [hp, hname, hloc]
    · simp [hj]
  | structs | consts | structConsts | globals | globalStructs | memory => rfl

section EntriesNew

variable {aggregates : Symbols → List Aggregate} {entries : Symbols → List Scalar} {u : Symbols}

theorem EntriesNew.refl (s : Symbols) : EntriesNew aggregates entries s s := by
  simp [EntriesNew]

/-- Nothing is added that has members. -/
theorem EntriesNew.keep (h : EntriesNew aggregates entries s t)
    (ht : ∀ c ∈ aggregates t, c.struct < t.structs.length) (hstructs : t.structs <+: u.structs)
    (hsame : aggregates u = aggregates t) (hentries : entries t <+: entries u) :
    EntriesNew aggregates entries s u := by
  intro c hc name hname
  rw [hsame] at hc
  rw [entryNames_eq_of_isPrefix hstructs (ht c (List.mem_of_mem_drop hc))] at hname
  obtain ⟨e, he, hname⟩ := h c hc name hname
  exact ⟨e, (hentries.drop _).subset he, hname⟩

/-- A struct variable or constant is added with the entries for its members. -/
theorem EntriesNew.add (h : EntriesNew aggregates entries s t)
    (ht : ∀ c ∈ aggregates t, c.struct < t.structs.length) (hsame : u.structs = t.structs)
    (haggregates : aggregates s <+: aggregates t) (hentries : entries s <+: entries t)
    {id : Nat} {d : StructDef} {values : List Value} {members : List Nat}
    (hd : t.structs[id]? = some d) (hvalues : values.length = d.members.length)
    (hu : aggregates u = aggregates t ++ [⟨name, id, members, loc⟩])
    (hue : entries u = entries t ++ d.scalars name values loc) :
    EntriesNew aggregates entries s u := by
  intro c hc wanted hwanted
  rw [hue, List.drop_append_of_le_length hentries.length_le]
  rw [hu, List.drop_append_of_le_length haggregates.length_le] at hc
  rcases List.mem_append.mp hc with hc | hc
  · have hprefix : t.structs <+: u.structs := hsame ▸ List.prefix_refl _
    rw [entryNames_eq_of_isPrefix hprefix (ht c (List.mem_of_mem_drop hc))] at hwanted
    obtain ⟨e, he, hname⟩ := h c hc wanted hwanted
    exact ⟨e, List.mem_append_left _ he, hname⟩
  · obtain rfl := List.mem_singleton.mp hc
    simp only [entryNames, Symbols.members, hsame, hd, Option.elim_some] at hwanted
    obtain ⟨m, hm, rfl⟩ := List.mem_map.mp hwanted
    obtain ⟨i, hi⟩ := List.getElem?_of_mem hm
    have hlt : i < values.length := hvalues ▸ (List.getElem?_eq_some_iff.mp hi).1
    have hpair : (values[i], m) ∈ values.zip d.members :=
      List.mem_of_getElem? (List.getElem?_zip_eq_some.mpr ⟨List.getElem?_eq_getElem hlt, hi⟩)
    exact ⟨_, List.mem_append_right _ (List.mem_map_of_mem hpair), rfl⟩

end EntriesNew

end Symbols

namespace Resolution

variable {q r r' : Resolution} {eof loc : Location} {name : String} {rest ts : List Token}
  {used : Nat}

theorem marks_setProcedure {pid : Nat} {p p' : Procedure} (hproc : r.procedure? = some (pid, p))
    (hname : p'.name = p.name) (hloc : p'.loc = p.loc) (table : TableKind) (loc : Location) :
    ∃ new, (r.setProcedure pid p').symbols.marks table = r.symbols.marks table ++ new ∧
      ∀ b ∈ new, b.loc = loc := by
  refine ⟨[], ?_, by simp⟩
  rw [List.append_nil]
  exact Symbols.marks_modifyProc (procedure?_eq_some.mp hproc).2 hname hloc table

/-- What is declared lies where it is declared. -/
theorem Declares.marks (hdeclares : Declares r name loc r') (table : TableKind) :
    ∃ new, r'.symbols.marks table = r.symbols.marks table ++ new ∧ ∀ b ∈ new, b.loc = loc := by
  have hnone : ∃ new, r.symbols.marks table = r.symbols.marks table ++ new ∧
      ∀ b ∈ new, b.loc = loc := ⟨[], (List.append_nil _).symm, by simp⟩
  have hscalars (d : StructDef) (values : List Value) :
      ∀ b ∈ (d.scalars name values loc).map (fun v => (⟨v.name, v.loc⟩ : Mark)), b.loc = loc := by
    simp +contextual [StructDef.scalars, eq_comm]
  have hone : ∀ b ∈ [(⟨name, loc⟩ : Mark)], b.loc = loc := by simp
  cases hdeclares with
  | struct =>
    cases table with
    | structs => exact ⟨[⟨name, loc⟩], List.map_append, hone⟩
    | consts | structConsts | globals | globalStructs | memory | procs => exact hnone
  | const =>
    cases table with
    | consts => exact ⟨[⟨name, loc⟩], List.map_append, hone⟩
    | structs | structConsts | globals | globalStructs | memory | procs => exact hnone
  | structConst =>
    cases table with
    | consts => exact ⟨_, List.map_append, hscalars _ _⟩
    | structConsts => exact ⟨[⟨name, loc⟩], List.map_append, hone⟩
    | structs | globals | globalStructs | memory | procs => exact hnone
  | var =>
    cases table with
    | globals => exact ⟨[⟨name, loc⟩], List.map_append, hone⟩
    | structs | consts | structConsts | globalStructs | memory | procs => exact hnone
  | structVar =>
    cases table with
    | globals => exact ⟨_, List.map_append, hscalars _ _⟩
    | globalStructs => exact ⟨[⟨name, loc⟩], List.map_append, hone⟩
    | structs | consts | structConsts | memory | procs => exact hnone
  | memory _ hm =>
    cases table with
    | memory =>
      obtain ⟨region, hname, hloc, hregions⟩ := Memory.regions_of_reserve? hm
      refine ⟨[⟨region.name, region.loc⟩], ?_, by simp [hloc]⟩
      simp [Symbols.marks, hregions]
    | structs | consts | structConsts | globals | globalStructs | procs => exact hnone
  | localVar hproc | localStructVar hproc | localMemory hproc =>
    refine marks_setProcedure hproc ?_ ?_ table loc <;> rfl

theorem Move.marks {t : Token} (hmove : Move eof r t rest r' used) (hsym : r.symbols.WellFormed)
    (table : TableKind) :
    ∃ new, r'.symbols.marks table = r.symbols.marks table ++ new ∧ ∀ b ∈ new, b.loc = t.loc := by
  have hnone : ∃ new, r.symbols.marks table = r.symbols.marks table ++ new ∧
      ∀ b ∈ new, b.loc = t.loc := ⟨[], (List.append_nil _).symm, by simp⟩
  cases hmove with
  | literal | string | word | openIf | openElse | closeIf | closeElse | closeProc => exact hnone
  | openLet _ hp | closeLet _ _ _ hp =>
    refine marks_setProcedure hp ?_ ?_ table t.loc <;> rfl
  | declare _ _ _ hshape hproc hr =>
    exact (declareShape_declares (Shape.declared_of_classify hsym hshape) hproc hr).marks table
  | declareProc _ _ _ _ hr =>
    obtain ⟨_, p, _, hloc, _, _, _, rfl⟩ := declareProc_eq_ok hr
    cases table with
    | procs => exact ⟨[⟨p.name, p.loc⟩], List.map_append, by simp [hloc]⟩
    | structs | consts | structConsts | globals | globalStructs | memory => exact hnone

/-- What is declared between two points lies at the tokens between. -/
theorem Reaches.marks (h : Reaches eof r ts r' rest) (hsound : Sound r) (table : TableKind) :
    ∃ new, r'.symbols.marks table = r.symbols.marks table ++ new ∧
      ∀ b ∈ new, ∃ t ∈ ts, b.loc = t.loc := by
  induction h with
  | start => exact ⟨[], (List.append_nil _).symm, by simp⟩
  | @step q q' t rest used h hstep ih =>
    obtain ⟨new, hnew, hlocs⟩ := ih
    obtain ⟨more, hmore, hloc⟩ := (step_move hstep).marks (h.sound hsound).tables table
    refine ⟨new ++ more, by rw [hmore, hnew, List.append_assoc], ?_⟩
    refine List.forall_mem_append.mpr ⟨hlocs, fun b hb => ?_⟩
    exact ⟨t, h.suffix.subset List.mem_cons_self, hloc b hb⟩

/-- What is declared up to a point lies at none of the tokens still to be read. -/
theorem Reaches.marks_behind (h : Reaches eof {} ts r rest)
    (hts : ts.Pairwise fun t u => t.loc ≠ u.loc) (table : TableKind) :
    ∀ a ∈ r.symbols.marks table, ∀ u ∈ rest, a.loc ≠ u.loc := by
  induction h with
  | start => cases table <;> simp [Symbols.marks]
  | @step q q' t rest used h hstep ih =>
    obtain ⟨new, hnew, hloc⟩ := (step_move hstep).marks (h.sound .empty).tables table
    have hlater := (List.pairwise_cons.mp (hts.sublist h.suffix.sublist)).1
    intro a ha u hu
    have hu := List.mem_of_mem_drop hu
    rw [hnew] at ha
    rcases List.mem_append.mp ha with ha | ha
    · exact ih a ha u (List.mem_cons_of_mem t hu)
    · rw [hloc a ha]
      exact hlater u hu

structure MembersNew (q r : Resolution) : Prop where
  consts : Symbols.EntriesNew Symbols.structConsts Symbols.consts q.symbols r.symbols
  vars : Symbols.EntriesNew Symbols.globalStructs Symbols.globals q.symbols r.symbols

theorem Declares.membersNew (hdeclares : Declares r name loc r') (hcoherent : r.symbols.Coherent)
    (hbefore : q.settled.IsPrefix r.settled) (h : MembersNew q r) : MembersNew q r' := by
  have hc : ∀ c ∈ r.symbols.structConsts, c.struct < r.symbols.structs.length :=
    fun c hc => (hcoherent.structConsts c hc).struct_lt
  have hv : ∀ v ∈ r.symbols.globalStructs, v.struct < r.symbols.structs.length :=
    fun v hv => (hcoherent.globalStructs v hv).struct_lt
  have hrefl {α : Type} (l : List α) : l <+: l := List.prefix_refl l
  cases hdeclares with
  | struct =>
    exact ⟨h.consts.keep hc (List.prefix_append _ _) rfl (hrefl _),
      h.vars.keep hv (List.prefix_append _ _) rfl (hrefl _)⟩
  | const =>
    exact ⟨h.consts.keep hc (hrefl _) rfl (List.prefix_append _ _),
      h.vars.keep hv (hrefl _) rfl (hrefl _)⟩
  | structConst hd hvalues =>
    exact ⟨h.consts.add hc rfl hbefore.structConsts hbefore.consts hd hvalues rfl rfl,
      h.vars.keep hv (hrefl _) rfl (hrefl _)⟩
  | var =>
    exact ⟨h.consts.keep hc (hrefl _) rfl (hrefl _),
      h.vars.keep hv (hrefl _) rfl (List.prefix_append _ _)⟩
  | structVar _ hd hvalues =>
    exact ⟨h.consts.keep hc (hrefl _) rfl (hrefl _),
      h.vars.add hv rfl hbefore.globalStructs hbefore.globals hd hvalues rfl rfl⟩
  | memory | localVar | localStructVar | localMemory =>
    exact ⟨h.consts.keep hc (hrefl _) rfl (hrefl _), h.vars.keep hv (hrefl _) rfl (hrefl _)⟩

theorem Move.membersNew {t : Token} (hmove : Move eof r t rest r' used)
    (hsym : r.symbols.WellFormed) (hcoherent : r.symbols.Coherent)
    (hbefore : q.settled.IsPrefix r.settled) (h : MembersNew q r) : MembersNew q r' := by
  cases hmove with
  | literal | string | word | openIf | openElse | openLet | closeIf | closeElse | closeLet
    | closeProc => exact ⟨h.consts, h.vars⟩
  | declare _ _ _ hshape hproc hr =>
    have hdeclares := declareShape_declares (Shape.declared_of_classify hsym hshape) hproc hr
    exact hdeclares.membersNew hcoherent hbefore h
  | declareProc _ _ _ _ hr =>
    obtain ⟨_, p, _, _, _, _, _, rfl⟩ := declareProc_eq_ok hr
    exact ⟨h.consts, h.vars⟩

theorem Reaches.membersNew (h : Reaches eof r ts r' rest) (hsound : Sound r)
    (hcoherent : r.symbols.Coherent) : MembersNew r r' := by
  induction h with
  | start => exact ⟨.refl _, .refl _⟩
  | step h hstep ih =>
    exact (step_move hstep).membersNew (h.sound hsound).tables (h.coherent hsound hcoherent)
      h.continues.2 ih

end Resolution

/-- Between two points at top level of a text, a declared word keeps its meaning exactly if what is
added in between spares it. -/
theorem meaning_stays_iff_spares {file source : String} {s : TokenStream} {r r' : Resolution}
    {rest rest' : List Token} (hs : TokenStream.ofSource file source = .ok s)
    (hr : Resolution.Reaches s.eof {} s.tokens r rest)
    (hr' : Resolution.Reaches s.eof r rest r' rest') (htop : r.current = none)
    (htop' : r'.current = none) {word : String} {loc : Location} {m : Meaning}
    (hm : r.lookup word loc = .ok (some m)) (hdeclared : m.declared.isSome) :
    r'.lookup word loc = .ok (some m) ↔ r.symbols.Spares r'.symbols word := by
  have hsound := hr.sound .empty
  have hcoherent := hr.coherent .empty .empty
  rw [Resolution.lookup_eq_topLevel htop] at hm
  rw [Resolution.lookup_eq_topLevel htop']
  constructor
  · intro hm'
    obtain ⟨place, hplace⟩ := Option.isSome_iff_exists.mp hdeclared
    have hfound := (Symbols.declared_eq_declaredAt? hm hdeclared).symm.trans hplace
    have hfound' := (Symbols.declared_eq_declaredAt? hm' hdeclared).symm.trans hplace
    obtain ⟨table, a, ha, rfl⟩ := Symbols.exists_mark_of_declaredAt? hfound
    have htokens : s.tokens.Pairwise fun t u => t.loc ≠ u.loc :=
      (TokenStream.pairwise_tokens hs).imp fun hlt heq => by simp [heq] at hlt
    have hbehind := hr.marks_behind htokens table a ha
    have hmembers := hr'.membersNew hsound hcoherent
    refine Symbols.GrowsBeside.spares ⟨fun table => ?_, hmembers.consts, hmembers.vars⟩ hfound'
    obtain ⟨new, hnew, hlocs⟩ := hr'.marks hsound table
    refine ⟨new, hnew, fun b hb => ?_⟩
    obtain ⟨t, ht, hloc⟩ := hlocs b hb
    exact hloc ▸ (hbehind t ht).symm
  · intro hspares
    exact (hr'.preserves hsound hcoherent hm hdeclared hspares).lookup hcoherent hm hdeclared

end StackEffect
