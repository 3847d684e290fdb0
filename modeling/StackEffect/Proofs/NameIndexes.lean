import StackEffect.Proofs.Tiling
import StackEffect.Proofs.VariableWords
import StackEffect.Symbols.Index

/-! # Indexes that mirror their tables

Entries are only ever added behind the others, and each addition puts the new position under the
name of the entry. So whatever is added, and however often a name repeats, the index of a table has
the greatest position at which a name stands, which is the one that a search through the table
finds. An addition has no influence on the indexes of the other tables.
-/

namespace StackEffect

/-! ## The last position of a name -/

namespace Named

variable {α : Type} [Named α] {wanted : String} {l : List α} {i : Nat}

theorem position_eq_some_iff :
    (last? wanted l).map (·.1) = some i ↔
      IsGreatest {j | (l.map name)[j]? = some wanted} i := by
  have hmem (j : Nat) : (l.map name)[j]? = some wanted ↔ ∃ a, l[j]? = some a ∧ name a = wanted := by
    rw [List.getElem?_map, Option.map_eq_some_iff]
  constructor
  · intro h
    obtain ⟨⟨i, a⟩, hfound, rfl⟩ := Option.map_eq_some_iff.mp h
    refine ⟨(hmem i).mpr ⟨a, getElem?_of_last? hfound, name_of_last? hfound⟩, fun j hj => ?_⟩
    obtain ⟨b, hb, hname⟩ := (hmem j).mp hj
    exact le_last? hfound hb hname
  · rintro ⟨hi, hgreatest⟩
    obtain ⟨a, ha, hname⟩ := (hmem i).mp hi
    have hfound := last?_of_le ha hname fun j b hb hj => hgreatest ((hmem j).mpr ⟨b, hb, hj⟩)
    rw [hfound, Option.map_some]

theorem position_eq_none_iff : (last? wanted l).map (·.1) = none ↔ wanted ∉ l.map name := by
  rw [Option.map_eq_none_iff, last?_eq_none, List.mem_map]
  simp

end Named

namespace Symbols

variable {s t : Symbols} {table : TableKind} {name : String} {e : NewEntry} {position i : Nat}

def tableNames (s : Symbols) : TableKind → List String
  | .structs => s.structs.map (·.name)
  | .consts => s.consts.map (·.name)
  | .structConsts => s.structConsts.map (·.name)
  | .globals => s.globals.map (·.name)
  | .globalStructs => s.globalStructs.map (·.name)
  | .memory => s.memory.regions.map (·.name)
  | .procs => s.procs.map (·.name)

theorem find?_eq_some_iff :
    s.find? table name = some i ↔ IsGreatest {j | (s.tableNames table)[j]? = some name} i := by
  cases table <;> exact Named.position_eq_some_iff

theorem find?_eq_none_iff : s.find? table name = none ↔ name ∉ s.tableNames table := by
  cases table <;> exact Named.position_eq_none_iff

/-- What a table finds depends on the names of its entries alone. -/
theorem find?_congr (h : t.tableNames table = s.tableNames table) (name : String) :
    t.find? table name = s.find? table name := by
  ext i
  rw [find?_eq_some_iff, find?_eq_some_iff, h]

theorem getElem?_concat_of_ne {names : List String} {new name : String} (h : name ≠ new) (j : Nat) :
    (names ++ [new])[j]? = some name ↔ names[j]? = some name := by
  by_cases hj : j < names.length
  · rw [List.getElem?_append_left hj]
  · rw [List.getElem?_append_right (Nat.le_of_not_lt hj),
      List.getElem?_eq_none (Nat.le_of_not_lt hj)]
    simp only [reduceCtorEq, iff_false]
    exact fun hname => h (List.mem_singleton.mp (List.mem_of_getElem? hname))

/-- A name that is added is found at its new position, and other names where they were. -/
theorem find?_concat {new : String} (h : t.tableNames table = s.tableNames table ++ [new])
    (name : String) :
    t.find? table name =
      if name = new then some (s.tableNames table).length else s.find? table name := by
  by_cases hname : name = new
  · rw [if_pos hname, find?_eq_some_iff, h, hname]
    refine ⟨List.getElem?_concat_length, fun j hj => ?_⟩
    have hlt := (List.getElem?_eq_some_iff.mp hj).1
    rw [List.length_append, List.length_singleton] at hlt
    exact Nat.le_of_lt_succ hlt
  · rw [if_neg hname]
    ext i
    simp only [find?_eq_some_iff, h, getElem?_concat_of_ne hname]

/-! ## Additions -/

/-- What an addition does to the tables: the entry becomes the last one of its table, and all others
stay where they are. -/
structure Gains (s : Symbols) (e : NewEntry) (position : Nat) (t : Symbols) : Prop where
  position_eq : position = (s.tableNames e.table).length
  names : ∀ table, t.tableNames table =
    if table = e.table then s.tableNames table ++ [e.name] else s.tableNames table
  kept : s.IsPrefix t

def Overflows (s : Symbols) : NewEntry → Prop
  | .memory _ size _ => byteLimit < s.memory.size + wholeCells size
  | _ => False

/-- What the tables find after an addition. -/
theorem Gains.find? (h : s.Gains e position t) (table : TableKind) (name : String) :
    t.find? table name =
      if table = e.table ∧ name = e.name then some position else s.find? table name := by
  by_cases htable : table = e.table
  · have hnames := h.names table
    rw [if_pos htable] at hnames
    rw [find?_concat hnames, h.position_eq, htable]
    simp
  · have hnames := h.names table
    rw [if_neg htable] at hnames
    rw [if_neg fun hboth => htable hboth.1, find?_congr hnames]

end Symbols

/-! ## Indexes -/

theorem NameIndexes.of_insert (n : NameIndexes) (table table' : TableKind) (name : String)
    (position : Nat) :
    (n.insert table name position).of table' =
      if table' = table then (n.of table).insert name position else n.of table' := by
  cases table <;> cases table' <;> rfl

namespace IndexedSymbols

variable {s : IndexedSymbols}

/-- The indexes find what a search through the tables finds. -/
def Agrees (s : IndexedSymbols) : Prop :=
  ∀ table name, s.find? table name = s.symbols.find? table name

section

attribute [local simp] Symbols.tableNames NewEntry.table NewEntry.name Symbols.addStruct
  Symbols.addConst Symbols.addStructConst Symbols.addGlobal Symbols.addGlobalStruct Symbols.addProc
  Memory.extend

/-- An addition is granted and puts the new position under the name of the entry, or it asks for
more memory than there is and changes nothing. -/
theorem add_granted_or_refused (s : IndexedSymbols) (e : NewEntry) :
    (¬ s.symbols.Overflows e ∧ ∃ position t, s.symbols.Gains e position t ∧
        s.add e = (some position, ⟨t, s.names.insert e.table e.name position⟩)) ∨
      (s.symbols.Overflows e ∧ s.add e = (none, s)) := by
  cases e with
  | struct | const | structConst | global | globalStruct | proc =>
    rw [add, addEntry, run_append]
    refine .inl ⟨id, _, _, ⟨?_, fun table => ?_, ?_⟩, rfl⟩
    · simp
    · cases table <;> simp
    · constructor <;> simp
  | memory name size loc =>
    have hrun : s.add (.memory name size loc) = _ := s.run_addMemory name size loc
    rw [Memory.reserve?_eq] at hrun
    by_cases hroom : s.symbols.memory.size + wholeCells size ≤ byteLimit
    · rw [if_pos hroom] at hrun
      refine .inl ⟨Nat.not_lt.mpr hroom, _, _, ⟨?_, fun table => ?_, ?_⟩, hrun⟩
      · simp
      · cases table <;> simp
      · constructor <;> simp
    · rw [if_neg hroom] at hrun
      exact .inr ⟨Nat.lt_of_not_le hroom, hrun⟩

end

/-- What the indexes find after an addition. -/
theorem find?_insert (t : Symbols) (n : NameIndexes) (e : NewEntry) (position : Nat)
    (table : TableKind) (name : String) :
    find? ⟨t, n.insert e.table e.name position⟩ table name =
      if table = e.table ∧ name = e.name then some position else (n.of table)[name]? := by
  rw [find?, NameIndexes.of_insert]
  by_cases htable : table = e.table
  · rw [if_pos htable, Std.HashMap.getElem?_insert, htable]
    by_cases hname : name = e.name
    · simp [hname]
    · simp [hname, Ne.symm hname]
  · rw [if_neg htable, if_neg fun hboth => htable hboth.1]

theorem Agrees.add (h : s.Agrees) (e : NewEntry) : (s.add e).2.Agrees := by
  rcases s.add_granted_or_refused e with ⟨-, position, t, hgains, hadd⟩ | ⟨-, hadd⟩
  · intro table name
    rw [hadd, find?_insert, hgains.find?, ← h table name]
    rfl
  · rwa [hadd]

theorem agrees_empty : Agrees {} := by
  intro table name
  cases table <;> exact Std.HashMap.getElem?_empty

theorem agrees_addAll (entries : List NewEntry) : (addAll {} entries).Agrees :=
  List.foldlRecOn entries _ agrees_empty fun _ h e _ => h.add e

/-- Each index has the greatest position at which a name stands in its table, and none exactly if it
stands nowhere, which is what a search through the table finds. -/
structure Mirrors (s : IndexedSymbols) : Prop where
  found : ∀ table name i, s.find? table name = some i ↔
    IsGreatest {j | (s.symbols.tableNames table)[j]? = some name} i
  absent : ∀ table name, s.find? table name = none ↔ name ∉ s.symbols.tableNames table
  searched : ∀ table name, s.symbols.find? table name = s.find? table name

theorem Agrees.mirrors (h : s.Agrees) : s.Mirrors where
  found table name i := by rw [h, Symbols.find?_eq_some_iff]
  absent table name := by rw [h, Symbols.find?_eq_none_iff]
  searched table name := (h table name).symm

/-- What one more addition does: it gives the former length of its table, or is refused for want of
memory and changes nothing. No entry changes, and neither does what the other tables find. -/
structure AddsOne (s : IndexedSymbols) (e : NewEntry) : Prop where
  granted : ∀ i, (s.add e).1 = some i → i = (s.symbols.tableNames e.table).length ∧
    (s.add e).2.symbols.tableNames e.table = s.symbols.tableNames e.table ++ [e.name]
  refused : (s.add e).1 = none ↔ s.symbols.Overflows e
  unchanged : (s.add e).1 = none → (s.add e).2 = s
  kept : s.symbols.IsPrefix (s.add e).2.symbols
  others : ∀ table, table ≠ e.table → ∀ name, (s.add e).2.find? table name = s.find? table name

theorem addsOne (s : IndexedSymbols) (e : NewEntry) : s.AddsOne e := by
  rcases s.add_granted_or_refused e with ⟨hfits, position, t, hgains, hadd⟩ | ⟨hoverflows, hadd⟩
  · constructor
    · intro i hi
      rw [hadd] at hi ⊢
      cases hi
      have hnames := hgains.names e.table
      rw [if_pos rfl] at hnames
      exact ⟨hgains.position_eq, hnames⟩
    · rw [hadd]
      simp [hfits]
    · intro hnone
      rw [hadd] at hnone
      cases hnone
    · rw [hadd]
      exact hgains.kept
    · intro table htable name
      rw [hadd, find?_insert, if_neg fun hboth => htable hboth.1]
      rfl
  · constructor
    · intro i hi
      rw [hadd] at hi
      cases hi
    · rw [hadd]
      simp [hoverflows]
    · rw [hadd]
      exact fun _ => rfl
    · rw [hadd]
      exact .refl _
    · rw [hadd]
      exact fun _ _ _ => rfl

end IndexedSymbols

/-- Whatever is added to the global tables, with whatever names, the index of each table has for a
name the greatest position of an entry with that name, and none exactly if there is no such entry.
Each addition that is granted gives the former length of its table; none changes an entry that is
there, or what the other six tables find. -/
theorem name_indexes_mirror_tables (entries : List NewEntry) :
    (IndexedSymbols.addAll {} entries).Mirrors ∧
      ∀ e, (IndexedSymbols.addAll {} entries).AddsOne e :=
  ⟨(IndexedSymbols.agrees_addAll entries).mirrors, IndexedSymbols.addsOne _⟩

end StackEffect
