import Mathlib.Data.List.Infix
import StackEffect.Proofs.Retention
import StackEffect.Symbols.Index

/-! # Names that keep their meaning

A word is declared only while it has no meaning, so no declaration takes away the name of another.
Two kinds of entries escape this rule: those that stand for the members of struct variables and
constants, whose names nobody looks up when they are added, and variables whose names start with a
sigil, since such a word asks for another variable. They can take over constants and variables, and
nothing else. Where none of them does, a word declared at one point at top level means the same at
every later one.
-/

namespace StackEffect

namespace Named

variable {α : Type} [Named α] {wanted : String}

/-- Entries of other names do not change what is found. -/
theorem last?_append_of_ne (l : List α) {new : List α} (hnew : ∀ a ∈ new, name a ≠ wanted) :
    last? wanted (l ++ new) = last? wanted l := by
  induction l with
  | nil => exact last?_eq_none.mpr hnew
  | cons a l ih => simp only [List.cons_append, last?, ih]

end Named

/-- A procedure is found at its place also while its body is read. -/
theorem Named.last?_modify {procs : List Procedure} {id : Nat} {p p' : Procedure}
    (hp : procs[id]? = some p) (hname : p'.name = p.name) (hloc : p'.loc = p.loc)
    (wanted : String) :
    (last? wanted (procs.modify id fun _ => p')).map (fun found => (found.1, found.2.loc)) =
      (last? wanted procs).map fun found => (found.1, found.2.loc) := by
  induction procs generalizing id with
  | nil => simp at hp
  | cons q procs ih =>
    cases id with
    | zero =>
      obtain rfl : q = p := by simpa using hp
      have hsame : Named.name p' = Named.name q := hname
      simp only [List.modify_zero_cons, last?, hsame]
      cases last? wanted procs with
      | some found => rfl
      | none => by_cases hq : Named.name q = wanted <;> simp [hq, hloc]
    | succ id =>
      have hrest : procs[id]? = some p := by simpa using hp
      have htail := ih hrest
      simp only [List.modify_succ_cons, last?]
      cases hold : last? wanted procs with
      | none =>
        have hnew : last? wanted (procs.modify id fun _ => p') = none := by
          simpa [hold] using htail
        rw [hnew]
      | some found =>
        rw [hold, Option.map_some, Option.map_eq_some_iff] at htail
        obtain ⟨other, hother, heq⟩ := htail
        obtain ⟨hindex, hplace⟩ := Prod.mk.inj heq
        simp [hother, hindex, hplace]

namespace Access

theorem ofWord_of_load {text : String} (h : (ofWord text).1 = load) : (ofWord text).2 = text := by
  unfold ofWord at h ⊢
  split
  · rename_i hsigil
    simp [hsigil] at h
  · rename_i hsigil
    simp only [hsigil] at h
    split
    · rename_i hstar
      simp [hstar] at h
    · rfl

end Access

namespace Symbols

def entryNames (s : Symbols) (v : Aggregate) : List String :=
  (s.members v.struct).map fun m => s!"{v.name}.{m.name}"

/-- What a word is declared as at top level, in the order in which it is looked up. -/
def declaredAs? (s : Symbols) (word : String) : Option TableKind :=
  if (s.findStructConst? word).isSome then some .structConsts
  else if (s.findMemory? word).isSome then some .memory
  else if (s.findProc? word).isSome then some .procs
  else if (s.findConst? word).isSome then some .consts
  else if (s.findGlobalStruct? (Access.ofWord word).2).isSome then some .globalStructs
  else if (s.findGlobal? (Access.ofWord word).2).isSome then some .globals
  else none

/-- No entry for a member of a new struct constant has the name. -/
def ConstsSpare (s t : Symbols) (name : String) : Prop :=
  ∀ c ∈ t.structConsts.drop s.structConsts.length, name ∉ t.entryNames c

def MembersSpare (s t : Symbols) (name : String) : Prop :=
  ∀ v ∈ t.globalStructs.drop s.globalStructs.length, name ∉ t.entryNames v

/-- If the name starts with a sigil, no new struct variable has it. -/
def StructVarsSpare (s t : Symbols) (name : String) : Prop :=
  (Access.ofWord name).1 ≠ .load →
    ∀ v ∈ t.globalStructs.drop s.globalStructs.length, v.name ≠ name

/-- If the name starts with a sigil, no new variable has it. -/
def VarsSpare (s t : Symbols) (name : String) : Prop :=
  (Access.ofWord name).1 ≠ .load → ∀ v ∈ t.globals.drop s.globals.length, v.name ≠ name

/-- What is added to the tables leaves a word alone that is declared as an entry of some table.
Struct constants, regions and procedures are safe, since they are found before all entries that are
made without a look at their name. -/
def SparesAs (s t : Symbols) (word : String) : Option TableKind → Prop
  | some .consts => s.ConstsSpare t word
  | some .globalStructs =>
    s.ConstsSpare t word ∧ s.StructVarsSpare t (Access.ofWord word).2
  | some .globals =>
    s.ConstsSpare t word ∧ s.StructVarsSpare t (Access.ofWord word).2 ∧
      s.MembersSpare t (Access.ofWord word).2 ∧ s.VarsSpare t (Access.ofWord word).2
  | _ => True

/-- What is added to the tables leaves a word alone. -/
def Spares (s t : Symbols) (word : String) : Prop :=
  s.SparesAs t word (s.declaredAs? word)

section Decidability

variable (s t : Symbols) (name : String)

instance : Decidable (s.ConstsSpare t name) :=
  inferInstanceAs (Decidable (∀ c ∈ _, _))

instance : Decidable (s.MembersSpare t name) :=
  inferInstanceAs (Decidable (∀ v ∈ _, _))

instance : Decidable (s.StructVarsSpare t name) :=
  inferInstanceAs (Decidable (_ → ∀ v ∈ _, _))

instance : Decidable (s.VarsSpare t name) :=
  inferInstanceAs (Decidable (_ → ∀ v ∈ _, _))

instance (word : String) : (kind : Option TableKind) → Decidable (s.SparesAs t word kind)
  | some .consts => inferInstanceAs (Decidable (s.ConstsSpare t word))
  | some .globalStructs => inferInstanceAs (Decidable (_ ∧ _))
  | some .globals => inferInstanceAs (Decidable (_ ∧ _ ∧ _ ∧ _))
  | some .structs | some .structConsts | some .memory | some .procs | none => .isTrue trivial

instance (word : String) : Decidable (s.Spares t word) :=
  inferInstanceAs (Decidable (s.SparesAs t word _))

end Decidability

def topLevel (s : Symbols) : Resolution :=
  { symbols := s }

def HasVar (s : Symbols) (word : String) : Prop :=
  (s.findGlobalStruct? (Access.ofWord word).2).isSome ∨
    (s.findGlobal? (Access.ofWord word).2).isSome

/-- No struct constant, region or procedure has the name. -/
structure Free (s : Symbols) (word : String) : Prop where
  structConst : s.findStructConst? word = none
  region : s.findMemory? word = none
  proc : s.findProc? word = none

/-- What a declared word stands for is still found, and nothing is found before it. -/
inductive Kept (s t : Symbols) (word : String) : Prop
  | fixed (hfixed : ¬ s.Free word)
  | const {found : Nat × Scalar} (hfree : s.Free word) (hs : s.findConst? word = some found)
      (ht : t.findConst? word = some found)
  | structVar {found : Nat × Aggregate} (hfree : s.Free word) (hs : s.findConst? word = none)
      (hsvar : s.findGlobalStruct? (Access.ofWord word).2 = some found)
      (ht : t.findConst? word = none)
      (htvar : t.findGlobalStruct? (Access.ofWord word).2 = some found)
  | var {found : Nat × Scalar} (hfree : s.Free word) (hs : s.findConst? word = none)
      (hsnone : s.findGlobalStruct? (Access.ofWord word).2 = none)
      (hsvar : s.findGlobal? (Access.ofWord word).2 = some found) (ht : t.findConst? word = none)
      (htnone : t.findGlobalStruct? (Access.ofWord word).2 = none)
      (htvar : t.findGlobal? (Access.ofWord word).2 = some found)

/-- What the tables hold for a declared word is still found. -/
structure Preserves (s t : Symbols) (word : String) : Prop where
  structs : s.structs <+: t.structs
  consts : s.consts <+: t.consts
  structConst : t.findStructConst? word = s.findStructConst? word
  region : t.findMemory? word = s.findMemory? word
  proc : (t.findProc? word).map (fun found => (found.1, found.2.loc)) =
    (s.findProc? word).map fun found => (found.1, found.2.loc)
  kept : s.Kept t word

variable {s t u : Symbols} {word : String} {loc : Location} {m : Meaning}

theorem Free.declaredAs?_const {found : Nat × Scalar} (h : s.Free word)
    (hc : s.findConst? word = some found) : s.declaredAs? word = some .consts := by
  simp [declaredAs?, h.structConst, h.region, h.proc, hc]

theorem Free.declaredAs?_structVar {found : Nat × Aggregate} (h : s.Free word)
    (hc : s.findConst? word = none)
    (hv : s.findGlobalStruct? (Access.ofWord word).2 = some found) :
    s.declaredAs? word = some .globalStructs := by
  simp [declaredAs?, h.structConst, h.region, h.proc, hc, hv]

theorem Free.declaredAs?_var {found : Nat × Scalar} (h : s.Free word)
    (hc : s.findConst? word = none) (hnone : s.findGlobalStruct? (Access.ofWord word).2 = none)
    (hv : s.findGlobal? (Access.ofWord word).2 = some found) :
    s.declaredAs? word = some .globals := by
  simp [declaredAs?, h.structConst, h.region, h.proc, hc, hnone, hv]

theorem Spares.consts (h : s.Spares u word) (hkept : s.Kept t word) (hfree : s.Free word) :
    s.ConstsSpare u word := by
  unfold Spares at h
  cases hkept with
  | fixed hfixed => exact absurd hfree hfixed
  | const _ hc =>
    rw [hfree.declaredAs?_const hc] at h
    exact h
  | structVar _ hc hv =>
    rw [hfree.declaredAs?_structVar hc hv] at h
    exact h.1
  | var _ hc hnone hv =>
    rw [hfree.declaredAs?_var hc hnone hv] at h
    exact h.1

theorem Spares.structVars (h : s.Spares u word) (hkept : s.Kept t word) (hfree : s.Free word)
    (hconst : s.findConst? word = none) : s.StructVarsSpare u (Access.ofWord word).2 := by
  unfold Spares at h
  cases hkept with
  | fixed hfixed => exact absurd hfree hfixed
  | const _ hc => exact nomatch hconst.symm.trans hc
  | structVar _ hc hv =>
    rw [hfree.declaredAs?_structVar hc hv] at h
    exact h.2
  | var _ hc hnone hv =>
    rw [hfree.declaredAs?_var hc hnone hv] at h
    exact h.2.1

theorem Spares.vars (h : s.Spares u word) (hkept : s.Kept t word) (hfree : s.Free word)
    (hconst : s.findConst? word = none)
    (hstruct : s.findGlobalStruct? (Access.ofWord word).2 = none) :
    s.MembersSpare u (Access.ofWord word).2 ∧ s.VarsSpare u (Access.ofWord word).2 := by
  unfold Spares at h
  cases hkept with
  | fixed hfixed => exact absurd hfree hfixed
  | const _ hc => exact nomatch hconst.symm.trans hc
  | structVar _ _ hv => exact nomatch hstruct.symm.trans hv
  | var _ hc hnone hv =>
    rw [hfree.declaredAs?_var hc hnone hv] at h
    exact h.2.2

/-- What is found for a word is kept further on if what decides about it is found as before. -/
theorem Kept.trans (h : s.Kept t word)
    (hconst : s.Free word → u.findConst? word = t.findConst? word)
    (hstructVar : s.Free word → s.findConst? word = none → t.HasVar word →
      u.findGlobalStruct? (Access.ofWord word).2 = t.findGlobalStruct? (Access.ofWord word).2)
    (hvar : s.Free word → s.findConst? word = none →
      s.findGlobalStruct? (Access.ofWord word).2 = none → t.HasVar word →
      u.findGlobal? (Access.ofWord word).2 = t.findGlobal? (Access.ofWord word).2) :
    s.Kept u word := by
  cases h with
  | fixed hfixed => exact .fixed hfixed
  | const hfree hs ht => exact .const hfree hs ((hconst hfree).trans ht)
  | structVar hfree hs hsvar ht htvar =>
    have hhas : t.HasVar word := .inl (Option.isSome_of_eq_some htvar)
    exact .structVar hfree hs hsvar ((hconst hfree).trans ht)
      ((hstructVar hfree hs hhas).trans htvar)
  | var hfree hs hsnone hsvar ht htnone htvar =>
    have hhas : t.HasVar word := .inr (Option.isSome_of_eq_some htvar)
    exact .var hfree hs hsnone hsvar ((hconst hfree).trans ht)
      ((hstructVar hfree hs hhas).trans htnone) ((hvar hfree hs hsnone hhas).trans htvar)

theorem Preserves.modifyProc (h : s.Preserves t word) {id : Nat} {p p' : Procedure}
    (hp : t.procs[id]? = some p) (hname : p'.name = p.name) (hloc : p'.loc = p.loc) :
    s.Preserves (t.modifyProc id fun _ => p') word :=
  { h with
    proc := (Named.last?_modify hp hname hloc word).trans h.proc
    kept := h.kept.trans (fun _ => rfl) (fun _ _ _ => rfl) fun _ _ _ _ => rfl }

theorem members_eq_of_prefix (h : s.structs <+: t.structs) {id : Nat}
    (hid : id < s.structs.length) : t.members id = s.members id := by
  have hd : s.structs[id]? = some s.structs[id] := List.getElem?_eq_getElem hid
  rw [members, members, hd, IsPrefix.entry_stays h hd]

theorem constValues_eq_of_prefix (h : s.consts <+: t.consts) {c : Aggregate}
    (hc : c.Backed s.structs s.consts) : t.constValues c = s.constValues c := by
  apply List.filterMap_congr
  intro i hi
  obtain ⟨entry, hentry⟩ := hc.exists_of_mem hi
  rw [hentry, IsPrefix.entry_stays h hentry]

theorem Preserves.structConst? (h : s.Preserves t word) (hs : s.Coherent) :
    t.topLevel.structConst? word = s.topLevel.structConst? word := by
  simp only [Resolution.structConst?, topLevel, h.structConst]
  cases hc : s.findStructConst? word with
  | none => rfl
  | some found =>
    have hmem := List.mem_of_getElem? (Named.getElem?_of_last? hc)
    simp only [Option.map_some, constValues_eq_of_prefix h.consts (hs.structConsts _ hmem)]

theorem Preserves.call? (h : s.Preserves t word) :
    t.topLevel.call? word = s.topLevel.call? word := by
  have hcall := congrArg
    (Option.map fun found => (⟨[.call found.1], some found.2⟩ : Meaning)) h.proc
  simpa [Resolution.call?, topLevel, Function.comp_def] using hcall

/-- A struct variable that is still found stands for the same. -/
theorem Preserves.structVar? (h : s.Preserves t word) (hs : s.Coherent) {name : String}
    (hv : t.findGlobalStruct? name = s.findGlobalStruct? name) (access : Access) :
    (t.findGlobalStruct? name).map (fun found =>
        (⟨access.structOps .global found.2 (t.members found.2.struct),
          some found.2.loc⟩ : Meaning)) =
      (s.findGlobalStruct? name).map fun found =>
        ⟨access.structOps .global found.2 (s.members found.2.struct), some found.2.loc⟩ := by
  rw [hv]
  cases hfound : s.findGlobalStruct? name with
  | none => rfl
  | some found =>
    have hmem := List.mem_of_getElem? (Named.getElem?_of_last? hfound)
    simp only [Option.map_some, members_eq_of_prefix h.structs (hs.globalStructs _ hmem).struct_lt]

theorem Preserves.namedVar? (h : s.Preserves t word) (hs : s.Coherent) (hfree : s.Free word)
    (hconst : s.findConst? word = none) :
    t.topLevel.namedVar? word = s.topLevel.namedVar? word := by
  show t.topLevel.globalVar? (Access.ofWord word).1 (Access.ofWord word).2 =
    s.topLevel.globalVar? (Access.ofWord word).1 (Access.ofWord word).2
  simp only [Resolution.globalVar?, topLevel]
  cases h.kept with
  | fixed hfixed => exact absurd hfree hfixed
  | const _ hc => exact nomatch hconst.symm.trans hc
  | structVar _ _ hsvar _ htvar =>
    have hsame := h.structVar? hs (htvar.trans hsvar.symm) (Access.ofWord word).1
    rw [htvar, hsvar] at hsame ⊢
    rw [Option.map_some, Option.map_some, Option.some_or, Option.some_or]
    exact hsame
  | var _ _ hsnone hsvar _ htnone htvar =>
    rw [htnone, hsnone, htvar, hsvar]
    rfl

theorem Preserves.const? (h : s.Preserves t word) (hfree : s.Free word) :
    t.findConst? word = s.findConst? word := by
  cases h.kept with
  | fixed hfixed => exact absurd hfree hfixed
  | const _ hs ht => exact ht.trans hs.symm
  | structVar _ hs _ ht => exact ht.trans hs.symm
  | var _ hs _ _ ht => exact ht.trans hs.symm

/-- What is looked up last for a word: regions, procedures, constants and variables. -/
theorem Preserves.entries (h : s.Preserves t word) (hs : s.Coherent)
    (hstruct : s.findStructConst? word = none) :
    (t.topLevel.region? word).or ((t.topLevel.call? word).or
        ((t.topLevel.const? word).or (t.topLevel.namedVar? word))) =
      (s.topLevel.region? word).or ((s.topLevel.call? word).or
        ((s.topLevel.const? word).or (s.topLevel.namedVar? word))) := by
  have hregion : t.topLevel.region? word = s.topLevel.region? word := by
    simp only [Resolution.region?, topLevel, h.region]
    rfl
  rw [hregion, h.call?]
  cases hr : s.topLevel.region? word with
  | some _ => rfl
  | none =>
    cases hp : s.topLevel.call? word with
    | some _ => rfl
    | none =>
      have hnone : s.findMemory? word = none := by
        simpa [Resolution.region?, topLevel, Resolution.procedure?] using hr
      have hfree : s.Free word := ⟨hstruct, hnone, Option.map_eq_none_iff.mp hp⟩
      have hconst : t.topLevel.const? word = s.topLevel.const? word := by
        simp only [Resolution.const?, topLevel, h.const? hfree]
      rw [hconst]
      cases hc : s.topLevel.const? word with
      | some _ => rfl
      | none => simp only [Option.none_or, h.namedVar? hs hfree (Option.map_eq_none_iff.mp hc)]

/-- A word that stands for something declared stands for the same in tables that preserve it. -/
theorem Preserves.lookup (h : s.Preserves t word) (hs : s.Coherent)
    (hm : s.topLevel.lookup word loc = .ok (some m)) (hdeclared : m.declared.isSome) :
    t.topLevel.lookup word loc = .ok (some m) := by
  have hbinding : t.topLevel.binding? word = s.topLevel.binding? word := rfl
  unfold Resolution.lookup at hm ⊢
  rw [h.structConst? hs, hbinding]
  cases hearly : (s.topLevel.structConst? word).or ((Resolution.memberAccess? word).or
      ((s.topLevel.binding? word).or (Resolution.primitive? word))) with
  | some found => simpa only [hearly] using hm
  | none =>
    simp only [hearly] at hm ⊢
    have hstruct := Option.map_eq_none_iff.mp (Option.or_eq_none_iff.mp hearly).1
    cases hsigil : stripSigil? '#' word with
    | some target =>
      -- A cast is not declared anywhere.
      simp only [hsigil] at hm
      split at hm
      · cases hm
        cases hdeclared
      · cases hm
    | none =>
      simp only [hsigil] at hm ⊢
      rw [h.entries hs hstruct]
      exact hm

/-- The tables have nothing for a name. -/
structure Unused (s : Symbols) (name : String) : Prop extends s.Free name where
  const : s.findConst? name = none
  structVar : s.findGlobalStruct? (Access.ofWord name).2 = none
  var : s.findGlobal? (Access.ofWord name).2 = none

/-- A word that stands for something declared is used. -/
theorem Unused.not_declared (h : s.Unused word)
    (hm : s.topLevel.lookup word loc = .ok (some m)) : m.declared = none := by
  cases Resolution.means_of_lookup hm with
  | structConst hc => exact nomatch h.structConst.symm.trans hc
  | binding hproc => cases hproc
  | member | primitive | cast => rfl
  | region hscope hregion hname =>
    cases hscope.eq_global rfl
    exact absurd hname (Named.last?_eq_none.mp h.region _ (List.mem_of_getElem? hregion))
  | call hp => exact nomatch h.proc.symm.trans hp
  | const hc => exact nomatch h.const.symm.trans hc
  | structVar hscope hv hname =>
    cases hscope.eq_global rfl
    exact absurd hname (Named.last?_eq_none.mp h.structVar _ hv)
  | var hscope hv hname =>
    cases hscope.eq_global rfl
    exact absurd hname (Named.last?_eq_none.mp h.var _ (List.mem_of_getElem? hv))

/-- A word that stands for something declared is preserved where nothing changes. -/
theorem Preserves.refl (hm : s.topLevel.lookup word loc = .ok (some m))
    (hdeclared : m.declared.isSome) : s.Preserves s word := by
  refine ⟨List.prefix_refl _, List.prefix_refl _, rfl, rfl, rfl, ?_⟩
  by_cases hfree : s.Free word
  · cases hc : s.findConst? word with
    | some found => exact .const hfree hc hc
    | none =>
      cases hv : s.findGlobalStruct? (Access.ofWord word).2 with
      | some found => exact .structVar hfree hc hv hc hv
      | none =>
        cases hg : s.findGlobal? (Access.ofWord word).2 with
        | some found => exact .var hfree hc hv hg hc hv hg
        | none =>
          have hunused : s.Unused word := ⟨hfree, hc, hv, hg⟩
          simp [hunused.not_declared hm] at hdeclared
  · exact .fixed hfree

/-- A word without a meaning is not the name of the variable that another word asks for, unless
this name starts with a sigil. -/
theorem Unused.ne_of_hasVar {name : String} (h : s.Unused name) (hvar : s.HasVar word)
    (hsigil : (Access.ofWord (Access.ofWord word).2).1 ≠ .load → name ≠ (Access.ofWord word).2) :
    name ≠ (Access.ofWord word).2 := by
  by_cases hload : (Access.ofWord (Access.ofWord word).2).1 = .load
  · intro hname
    have hstructVar := h.structVar
    have hscalar := h.var
    rw [hname, Access.ofWord_of_load hload] at hstructVar hscalar
    simp [HasVar, hstructVar, hscalar] at hvar
  · exact hsigil hload

theorem entryNames_eq_of_isPrefix (h : t.structs <+: u.structs) {v : Aggregate}
    (hv : v.struct < t.structs.length) : u.entryNames v = t.entryNames v := by
  rw [entryNames, entryNames, members_eq_of_prefix h hv]

/-- What spares a word up to one point spares it up to every point before. -/
theorem Spares.until (h : s.Spares u word) (ht : t.Coherent) (hstructs : t.structs <+: u.structs)
    (hconsts : t.structConsts <+: u.structConsts) (hglobals : t.globals <+: u.globals)
    (hvars : t.globalStructs <+: u.globalStructs) : s.Spares t word := by
  have hconstsSpare (name : String) (h : s.ConstsSpare u name) : s.ConstsSpare t name := by
    intro c hc
    rw [← entryNames_eq_of_isPrefix hstructs
      (ht.structConsts c (List.mem_of_mem_drop hc)).struct_lt]
    exact h c ((hconsts.drop _).subset hc)
  have hmembersSpare (name : String) (h : s.MembersSpare u name) : s.MembersSpare t name := by
    intro v hv
    rw [← entryNames_eq_of_isPrefix hstructs
      (ht.globalStructs v (List.mem_of_mem_drop hv)).struct_lt]
    exact h v ((hvars.drop _).subset hv)
  have hstructVarsSpare (name : String) (h : s.StructVarsSpare u name) :
      s.StructVarsSpare t name :=
    fun hsigil v hv => h hsigil v ((hvars.drop _).subset hv)
  have hvarsSpare (name : String) (h : s.VarsSpare u name) : s.VarsSpare t name :=
    fun hsigil v hv => h hsigil v ((hglobals.drop _).subset hv)
  unfold Spares at h ⊢
  generalize s.declaredAs? word = kind at h ⊢
  match kind, h with
  | some .consts, h => exact hconstsSpare _ h
  | some .globalStructs, h => exact ⟨hconstsSpare _ h.1, hstructVarsSpare _ h.2⟩
  | some .globals, h =>
    exact ⟨hconstsSpare _ h.1, hstructVarsSpare _ h.2.1, hmembersSpare _ h.2.2.1,
      hvarsSpare _ h.2.2.2⟩
  | some .structs, _ | some .structConsts, _ | some .memory, _ | some .procs, _ | none, _ =>
    trivial

end Symbols

/-- The scalars of a struct have the names of its entries. -/
theorem StructDef.scalars_ne {s : Symbols} {id : Nat} {d : StructDef} {values : List Value}
    {owner wanted : String} {members : List Nat} {loc : Location}
    (hd : s.structs[id]? = some d)
    (hwanted : wanted ∉ s.entryNames ⟨owner, id, members, loc⟩) :
    ∀ v ∈ d.scalars owner values loc, v.name ≠ wanted := by
  intro v hv hname
  obtain ⟨⟨value, m⟩, hmem, rfl⟩ := List.mem_map.mp hv
  apply hwanted
  simp only [Symbols.entryNames, Symbols.members, hd, Option.elim_some]
  exact List.mem_map.mpr ⟨m, (List.of_mem_zip hmem).2, hname⟩

namespace Resolution

variable {q r r' : Resolution} {eof loc : Location} {rest : List Token} {used : Nat}
  {name word : String} {m : Meaning}

theorem lookup_eq_topLevel (htop : r.current = none) (text : String) (loc : Location) :
    r.lookup text loc = r.symbols.topLevel.lookup text loc := by
  obtain ⟨strings, symbols, code, current⟩ := r
  subst htop
  rfl

theorem unused_of_lookup (h : r.lookup name loc = .ok none) : r.symbols.Unused name := by
  obtain ⟨⟨hstructConst, _⟩, _, hregion, hcall, hconst, hvar⟩ := lookup_eq_none h
  simp only [structConst?, region?, call?, const?, namedVar?, globalVar?, Option.or_eq_none_iff,
    Option.map_eq_none_iff] at hstructConst hregion hcall hconst hvar
  exact ⟨⟨hstructConst, hregion.2, hcall⟩, hconst, hvar.2.1, hvar.2.2⟩

/-- What is added last is new. -/
theorem mem_drop_concat {α : Type} {l l' : List α} (h : l <+: l') (a : α) :
    a ∈ (l' ++ [a]).drop l.length := by
  rw [List.drop_append_of_le_length h.length_le]
  simp

/-- A declaration that spares a word preserves what is found for it. -/
theorem Declares.preserves (hdeclares : Declares r name loc r')
    (h : q.symbols.Preserves r.symbols word) (hbefore : q.settled.IsPrefix r.settled)
    (hunused : r.symbols.Unused name) (hname : name ≠ word)
    (hspares : q.symbols.Spares r'.symbols word) : q.symbols.Preserves r'.symbols word := by
  have hget {pid : Nat} {p : Procedure} (hproc : r.procedure? = some (pid, p)) :
      r.symbols.procs[pid]? = some p := (procedure?_eq_some.mp hproc).2
  cases hdeclares with
  | struct =>
    exact { h with
      structs := h.structs.trans (List.prefix_append _ _)
      kept := h.kept.trans (fun _ => rfl) (fun _ _ _ => rfl) fun _ _ _ _ => rfl }
  | const =>
    refine { h with
      consts := h.consts.trans (List.prefix_append _ _)
      kept := h.kept.trans (fun _ => ?_) (fun _ _ _ => rfl) fun _ _ _ _ => rfl }
    exact Named.last?_append_of_ne _ (List.forall_mem_singleton.mpr hname)
  | @structConst id d values hd _ =>
    refine { h with
      consts := h.consts.trans (List.prefix_append _ _)
      structConst := (Named.last?_append_of_ne _ (List.forall_mem_singleton.mpr hname)).trans
        h.structConst
      kept := h.kept.trans (fun hfree => ?_) (fun _ _ _ => rfl) fun _ _ _ _ => rfl }
    have hentries := hspares.consts h.kept hfree _ (mem_drop_concat hbefore.structConsts _)
    exact Named.last?_append_of_ne _ (StructDef.scalars_ne hd hentries)
  | var =>
    refine { h with
      kept := h.kept.trans (fun _ => rfl) (fun _ _ _ => rfl) fun hfree hc hnone hhas => ?_ }
    apply Named.last?_append_of_ne
    refine List.forall_mem_singleton.mpr (hunused.ne_of_hasVar hhas fun hsigil => ?_)
    exact (hspares.vars h.kept hfree hc hnone).2 hsigil _ (mem_drop_concat hbefore.globals _)
  | @structVar id d values _ hd _ =>
    refine { h with
      kept := h.kept.trans (fun _ => rfl) (fun hfree hc hhas => ?_) fun hfree hc hnone _ => ?_ }
    · apply Named.last?_append_of_ne
      refine List.forall_mem_singleton.mpr (hunused.ne_of_hasVar hhas fun hsigil => ?_)
      exact hspares.structVars h.kept hfree hc hsigil _ (mem_drop_concat hbefore.globalStructs _)
    · have hentries :=
        (hspares.vars h.kept hfree hc hnone).1 _ (mem_drop_concat hbefore.globalStructs _)
      exact Named.last?_append_of_ne _ (StructDef.scalars_ne hd hentries)
  | memory _ hm =>
    obtain ⟨region, hregion, _, hregions⟩ := Memory.regions_of_reserve? hm
    refine { h with
      region := ?_
      kept := h.kept.trans (fun _ => rfl) (fun _ _ _ => rfl) fun _ _ _ _ => rfl }
    have hother : region.name ≠ word := hregion ▸ hname
    rw [← h.region]
    simp only [Symbols.findMemory?, hregions]
    exact Named.last?_append_of_ne _ (List.forall_mem_singleton.mpr hother)
  | localVar hproc | localStructVar hproc | localMemory hproc =>
    refine h.modifyProc (hget hproc) ?_ ?_ <;> rfl

theorem declareProc_preserves (hr : r.declareProc name loc rest = .ok (r', used))
    (h : q.symbols.Preserves r.symbols word) (hname : name ≠ word) :
    q.symbols.Preserves r'.symbols word := by
  obtain ⟨_, p, rfl, _, _, _, _, rfl⟩ := declareProc_eq_ok hr
  refine { h with
    proc := ?_
    kept := h.kept.trans (fun _ => rfl) (fun _ _ _ => rfl) fun _ _ _ _ => rfl }
  rw [← h.proc]
  exact congrArg _ (Named.last?_append_of_ne _ (List.forall_mem_singleton.mpr hname))

/-- A step that spares a declared word preserves what is found for it. -/
theorem Move.preserves {t : Token} (hmove : Move eof r t rest r' used)
    (hsym : r.symbols.WellFormed) (h : q.symbols.Preserves r.symbols word)
    (hbefore : q.settled.IsPrefix r.settled)
    (hm : r.symbols.topLevel.lookup word loc = .ok (some m)) (hdeclared : m.declared.isSome)
    (hspares : q.symbols.Spares r'.symbols word) : q.symbols.Preserves r'.symbols word := by
  -- The word that is declared has no meaning yet, so it is another one.
  have hother {text : String} (hnone : r.lookup text t.loc = .ok none) : text ≠ word := by
    rintro rfl
    simp [(unused_of_lookup hnone).not_declared hm] at hdeclared
  cases hmove with
  | literal | string | word | openIf | openElse | closeIf | closeElse | closeProc => exact h
  | openLet _ hp | closeLet _ _ _ hp =>
    refine h.modifyProc (procedure?_eq_some.mp hp).2 ?_ ?_ <;> rfl
  | declare _ hnone _ hshape hproc hr =>
    have hdeclares := declareShape_declares (Shape.declared_of_classify hsym hshape) hproc hr
    exact hdeclares.preserves h hbefore (unused_of_lookup hnone) (hother hnone) hspares
  | declareProc _ hnone _ _ hr => exact declareProc_preserves hr h (hother hnone)

/-- What is added from one point of a resolution to another spares a declared word, so what is found
for it is preserved. -/
theorem Reaches.preserves {ts : List Token} (h : Reaches eof r ts r' rest) (hsound : Sound r)
    (hcoherent : r.symbols.Coherent) (hm : r.symbols.topLevel.lookup word loc = .ok (some m))
    (hdeclared : m.declared.isSome) (hspares : r.symbols.Spares r'.symbols word) :
    r.symbols.Preserves r'.symbols word := by
  induction h with
  | start => exact .refl hm hdeclared
  | step h hstep ih =>
    have hmove := step_move hstep
    have hnext := hmove.continues.settled
    have hkept := ih (hspares.until (h.coherent hsound hcoherent) hnext.structs hnext.structConsts
      hnext.globals hnext.globalStructs)
    exact hmove.preserves (h.sound hsound).tables hkept h.continues.2
      (hkept.lookup hcoherent hm hdeclared) hdeclared hspares

end Resolution

/-- A declared name keeps its meaning. A word that stands for something declared at one point at top
level stands for the same operations, declared at the same place, at every later point at top level,
unless it is a constant or a variable and an entry that was generated for a member in between has
its name, or its variable has a name with a sigil and was declared again. -/
theorem spared_names_keep_their_meaning {s : TokenStream} {r r' : Resolution}
    {rest rest' : List Token} (hr : Resolution.Reaches s.eof {} s.tokens r rest)
    (hr' : Resolution.Reaches s.eof r rest r' rest') (htop : r.current = none)
    (htop' : r'.current = none) {word : String} {loc : Location} {m : Meaning}
    (hm : r.lookup word loc = .ok (some m)) (hdeclared : m.declared.isSome)
    (hspares : r.symbols.Spares r'.symbols word) : r'.lookup word loc = .ok (some m) := by
  rw [Resolution.lookup_eq_topLevel htop] at hm
  rw [Resolution.lookup_eq_topLevel htop']
  have hcoherent := hr.coherent .empty .empty
  have hpreserves := hr'.preserves (hr.sound .empty) hcoherent hm hdeclared hspares
  exact hpreserves.lookup hcoherent hm hdeclared

namespace Resolution

/-- The state after a number of steps, with the tokens still to be read. -/
def advance (eof : Location) : Nat → Resolution → List Token →
    Except Fault (Resolution × List Token)
  | 0, r, ts => .ok (r, ts)
  | _ + 1, r, [] => .ok (r, [])
  | n + 1, r, t :: ts =>
    match r.step eof t ts with
    | .ok (r, used) => advance eof n r (ts.drop used)
    | .error f => .error f

theorem Reaches.advance {eof : Location} {start r r' : Resolution} {all ts rest : List Token}
    {n : Nat} (h : Reaches eof start all r ts)
    (hadvance : Resolution.advance eof n r ts = .ok (r', rest)) :
    Reaches eof start all r' rest := by
  induction n generalizing r ts with
  | zero =>
    cases hadvance
    exact h
  | succ n ih =>
    cases ts with
    | nil =>
      cases hadvance
      exact h
    | cons t ts =>
      simp only [Resolution.advance] at hadvance
      split at hadvance
      · rename_i next used hstep
        exact ih (.step h hstep) hadvance
      · cases hadvance

/-- Two points of the resolution of a text, found by counting steps. -/
theorem exists_points {x : Except Fault TokenStream} (n k : Nat)
    {P : TokenStream → Resolution → Resolution → Prop} [∀ s r r', Decidable (P s r r')]
    (h : (x.toOption.bind fun s => (advance s.eof n {} s.tokens).toOption.bind fun p =>
      (advance s.eof k p.1 p.2).toOption.map fun q => decide (P s p.1 q.1)) = some true) :
    ∃ s r rest r' rest', x = .ok s ∧ Reaches s.eof {} s.tokens r rest ∧
      Reaches s.eof r rest r' rest' ∧ P s r r' := by
  obtain ⟨s, hs, h⟩ := Option.bind_eq_some_iff.mp h
  obtain ⟨p, hp, h⟩ := Option.bind_eq_some_iff.mp h
  obtain ⟨q, hq, h⟩ := Option.map_eq_some_iff.mp h
  exact ⟨s, p.1, p.2, q.1, q.2, toOption_eq_some.mp hs,
    Reaches.start.advance (toOption_eq_some.mp hp), Reaches.start.advance (toOption_eq_some.mp hq),
    of_decide_eq_true h⟩

/-- A point of the resolution of a text, found by counting steps. -/
theorem exists_point {x : Except Fault TokenStream} (n : Nat)
    {P : TokenStream → Resolution → Prop} [∀ s r, Decidable (P s r)]
    (h : (x.toOption.bind fun s => (advance s.eof n {} s.tokens).toOption.map fun p =>
      decide (P s p.1)) = some true) :
    ∃ s r rest, x = .ok s ∧ Reaches s.eof {} s.tokens r rest ∧ P s r := by
  obtain ⟨s, hs, h⟩ := Option.bind_eq_some_iff.mp h
  obtain ⟨p, hp, h⟩ := Option.map_eq_some_iff.mp h
  exact ⟨s, p.1, p.2, toOption_eq_some.mp hs, Reaches.start.advance (toOption_eq_some.mp hp),
    of_decide_eq_true h⟩

theorem lookup_eq_of_mem {r : Resolution} {word : String} {loc : Location} {m : Meaning}
    (h : m ∈ (r.lookup word loc).toOption.join) : r.lookup word loc = .ok (some m) :=
  toOption_eq_some.mp (Option.join_eq_some_iff.mp h)

end Resolution

def sparingText : String :=
  "S struct m int end x int 7 end C : S :: 2 end y : S end " ++
    "f :: x drop z int 1 end end K :: 3 end"

theorem spared_variable_keeps_its_meaning :
    ∃ s r rest r' rest' m, TokenStream.ofSource "sparing" sparingText = .ok s ∧
      Resolution.Reaches s.eof {} s.tokens r rest ∧ Resolution.Reaches s.eof r rest r' rest' ∧
      r.current = none ∧ r'.current = none ∧ r.symbols.Spares r'.symbols "!x" ∧
      r.lookup "!x" s.eof = .ok (some m) ∧ m.ops = [.storeVar ⟨.global, 0⟩ .int] ∧
      m.declared.isSome ∧ r'.lookup "!x" s.eof = .ok (some m) := by
  obtain ⟨s, r, rest, r', rest', hs, hr, hr', htop, htop', hspares, m, hm, hops, hdeclared⟩ :=
    Resolution.exists_points (x := TokenStream.ofSource "sparing" sparingText)
      (P := fun s r r' => r.current = none ∧ r'.current = none ∧
        r.symbols.Spares r'.symbols "!x" ∧
        ∃ m ∈ (r.lookup "!x" s.eof).toOption.join, m.ops = [.storeVar ⟨.global, 0⟩ .int] ∧
          m.declared.isSome) 2 8 (by decide +kernel)
  have hfound := Resolution.lookup_eq_of_mem hm
  exact ⟨s, r, rest, r', rest', m, hs, hr, hr', htop, htop', hspares, hfound, hops, hdeclared,
    spared_names_keep_their_meaning hr hr' htop htop' hfound hdeclared hspares⟩

/-- At two points at top level of a text that resolves, a word stands for something declared, but
for other operations at the second than at the first. -/
def Resolution.Differ (word : String) (s : TokenStream) (r r' : Resolution) : Prop :=
  (Program.ofTokens s).toOption.isSome ∧ r.current = none ∧ r'.current = none ∧
    ∃ m ∈ (r.lookup word s.eof).toOption.join, ∃ m' ∈ (r'.lookup word s.eof).toOption.join,
      m.declared.isSome ∧ m'.ops ≠ m.ops

instance (word : String) (s : TokenStream) (r r' : Resolution) :
    Decidable (Resolution.Differ word s r r') :=
  inferInstanceAs (Decidable (_ ∧ _ ∧ _ ∧ ∃ _, _))

/-- A text in which a declared word loses its meaning. -/
def Rebinds (source word : String) : Prop :=
  ∃ s r rest r' rest', TokenStream.ofSource "rebinding" source = .ok s ∧
    Resolution.Reaches s.eof {} s.tokens r rest ∧ Resolution.Reaches s.eof r rest r' rest' ∧
    Resolution.Differ word s r r'

def reboundConst : String :=
  "C.m :: 1 end\nS struct m int end\nf :: C.m print end\nC : S :: 2 end\ng :: C.m print end"

def reboundVar : String :=
  "x.m int 7 end\nS struct m int end\nf :: x.m print end\nx : S end\ng :: x.m print end"

def reboundSigil : String :=
  "!x int 1 end\nf :: 5 !!x end\n!x int 2 end\ng :: 5 !!x end"

/-- Words that lose their meaning to a member entry of a struct constant, to one of a struct
variable, and to a second variable with a sigil in its name. -/
theorem names_not_spared_are_rebound :
    Rebinds reboundConst "C.m" ∧ Rebinds reboundVar "x.m" ∧ Rebinds reboundSigil "!!x" :=
  ⟨Resolution.exists_points 6 1 (by decide +kernel),
    Resolution.exists_points 6 1 (by decide +kernel),
    Resolution.exists_points 5 1 (by decide +kernel)⟩

end StackEffect
