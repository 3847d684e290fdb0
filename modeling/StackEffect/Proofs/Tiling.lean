import Mathlib.Order.Bounds.Basic
import StackEffect.Proofs.DeclarationShapes
import StackEffect.Symbols.Index

/-! # Memory without gaps

Global memory and the frame of a procedure are handed out in the same way: each region takes the
least number of whole cells that holds it and starts where the one before it ends. A region for
which there is no room is refused, and nothing changes. So whatever is asked for, the regions tile
the space from its start up to its size.
-/

namespace StackEffect

/-! ## Regions one behind the other -/

/-- Regions of whole cells one behind the other, from one offset up to another. -/
inductive Tiles : Nat → List Region → Nat → Prop
  | nil {pos : Nat} : Tiles pos [] pos
  | cons {pos stop : Nat} {r : Region} {rs : List Region} (hstart : r.offset = pos)
      (hcells : 4 ∣ r.size) (hrest : Tiles (pos + r.size) rs stop) : Tiles pos (r :: rs) stop

namespace Tiles

variable {pos stop i j : Nat} {rs : List Region} {r a b : Region}

theorem snoc (h : Tiles pos rs stop) (hstart : r.offset = stop) (hcells : 4 ∣ r.size) :
    Tiles pos (rs ++ [r]) (stop + r.size) := by
  induction h with
  | nil => exact .cons hstart hcells .nil
  | cons hfirst hfirstCells _ ih => exact .cons hfirst hfirstCells (ih hstart)

theorem eq_of_nil (h : Tiles pos [] stop) : stop = pos := by
  cases h
  rfl

theorem aligned (h : Tiles pos rs stop) (hpos : 4 ∣ pos) :
    ∀ r ∈ rs, 4 ∣ r.offset ∧ 4 ∣ r.size := by
  induction h with
  | nil => simp
  | cons hstart hcells _ ih =>
    exact List.forall_mem_cons.mpr ⟨⟨hstart ▸ hpos, hcells⟩, ih (Nat.dvd_add hpos hcells)⟩

theorem head (h : Tiles pos rs stop) (hr : rs.head? = some r) : r.offset = pos := by
  cases h with
  | nil => cases hr
  | cons hstart => exact Option.some.inj hr ▸ hstart

theorem last (h : Tiles pos rs stop) (hr : rs.getLast? = some r) : r.offset + r.size = stop := by
  induction h with
  | nil => cases hr
  | cons hstart _ hrest ih =>
    cases hrest with
    | nil => rw [← Option.some.inj hr, List.getLast_singleton, hstart]
    | cons => exact ih (by simpa using hr)

theorem adjacent (h : Tiles pos rs stop) (ha : rs[i]? = some a) (hb : rs[i + 1]? = some b) :
    b.offset = a.offset + a.size := by
  induction h generalizing i with
  | nil => cases ha
  | cons hstart _ hrest ih =>
    cases i with
    | zero =>
      obtain rfl := Option.some.inj ha
      rw [hstart]
      exact hrest.head (by simpa [List.head?_eq_getElem?] using hb)
    | succ i => exact ih ha hb

theorem start_le (h : Tiles pos rs stop) (hr : r ∈ rs) : pos ≤ r.offset := by
  induction h with
  | nil => cases hr
  | cons hstart _ _ ih =>
    rcases List.mem_cons.mp hr with rfl | hr
    · exact hstart.ge
    · exact (Nat.le_add_right _ _).trans (ih hr)

/-- Two regions share no byte. -/
theorem separate (h : Tiles pos rs stop) (hij : i < j) (ha : rs[i]? = some a)
    (hb : rs[j]? = some b) : a.offset + a.size ≤ b.offset := by
  induction h generalizing i j with
  | nil => cases ha
  | cons hstart _ hrest ih =>
    obtain ⟨j, rfl⟩ := Nat.exists_eq_add_one_of_ne_zero (Nat.ne_zero_of_lt hij)
    cases i with
    | zero =>
      obtain rfl := Option.some.inj ha
      rw [hstart]
      exact hrest.start_le (List.mem_of_getElem? hb)
    | succ i => exact ih (Nat.lt_of_succ_lt_succ hij) ha hb

end Tiles

/-- The bytes of whole cells are the least multiple of four that is enough. -/
theorem isLeast_wholeCells (bytes : Nat) :
    IsLeast {size | 4 ∣ size ∧ bytes ≤ size} (wholeCells bytes) := by
  refine ⟨⟨Nat.dvd_mul_left _ _, ?_⟩, ?_⟩
  · unfold wholeCells
    omega
  · rintro size ⟨hcells, hbytes⟩
    unfold wholeCells
    omega

namespace Memory

variable {m m' : Memory} {name : String} {bytes : Nat} {loc : Location}

/-- The regions tile the space from its start up to its size, which a 32-bit word can say. -/
structure Tiled (m : Memory) : Prop where
  aligned : ∀ r ∈ m.regions, 4 ∣ r.offset ∧ 4 ∣ r.size
  first : ∀ r, m.regions.head? = some r → r.offset = 0
  adjacent : ∀ (i : Nat) (a b : Region), m.regions[i]? = some a → m.regions[i + 1]? = some b →
    b.offset = a.offset + a.size
  last : ∀ r, m.regions.getLast? = some r → r.offset + r.size = m.size
  empty : m.regions = [] → m.size = 0
  separate : ∀ (i j : Nat) (a b : Region), i < j → m.regions[i]? = some a → m.regions[j]? = some b →
    a.offset + a.size ≤ b.offset
  limit : m.size ≤ 0xffffffff

theorem of_reserve? (hm : m.reserve? name bytes loc = some m') :
    m.size + wholeCells bytes ≤ byteLimit ∧
      m' = ⟨m.regions ++ [⟨name, m.size, wholeCells bytes, loc⟩], m.size + wholeCells bytes⟩ := by
  rw [reserve?_eq] at hm
  obtain ⟨hroom, hm⟩ := Option.ite_none_right_eq_some.mp hm
  exact ⟨hroom, (Option.some.inj hm).symm⟩

/-- The invariant of memory, in the form that one more region keeps. -/
def Packed (m : Memory) : Prop :=
  Tiles 0 m.regions m.size ∧ m.size ≤ byteLimit

theorem Packed.empty : ({} : Memory).Packed :=
  ⟨.nil, Nat.zero_le _⟩

theorem Packed.reserve (h : m.Packed) (hm : m.reserve? name bytes loc = some m') : m'.Packed := by
  obtain ⟨hroom, rfl⟩ := of_reserve? hm
  exact ⟨h.1.snoc rfl (isLeast_wholeCells bytes).1.1, hroom⟩

theorem Packed.tiled (h : m.Packed) : m.Tiled where
  aligned := h.1.aligned (Nat.dvd_zero 4)
  first _ := h.1.head
  adjacent _ _ _ := h.1.adjacent
  last _ := h.1.last
  empty hnone := (hnone ▸ h.1).eq_of_nil
  separate _ _ _ _ := h.1.separate
  limit := h.2

end Memory

/-! ## Whatever is asked for -/

structure RegionRequest where
  name : String
  bytes : UInt32
  loc : Location

/-- The size that a region gets for a request: whole cells, no more than it takes. -/
def RegionRequest.Takes (q : RegionRequest) (size : Nat) : Prop :=
  IsLeast {n | 4 ∣ n ∧ q.bytes.toNat ≤ n} size

def RegionRequest.Serves (q : RegionRequest) (r : Region) : Prop :=
  r.name = q.name ∧ r.loc = q.loc ∧ q.Takes r.size

namespace Memory

variable {m : Memory} {q : RegionRequest} {size : Nat}

def serve (m : Memory) (q : RegionRequest) : Memory :=
  (m.reserve? q.name q.bytes.toNat q.loc).getD m

theorem Packed.serve (h : m.Packed) : (m.serve q).Packed := by
  unfold Memory.serve
  cases hm : m.reserve? q.name q.bytes.toNat q.loc with
  | none => exact h
  | some m' => exact h.reserve hm

/-- A request is refused exactly if the region or the whole is past the limit. -/
theorem reserve?_eq_none_iff (hsize : q.Takes size) :
    m.reserve? q.name q.bytes.toNat q.loc = none ↔
      0xffffffff < size ∨ 0xffffffff < m.size + size := by
  obtain rfl : size = wholeCells q.bytes.toNat := hsize.unique (isLeast_wholeCells _)
  rw [reserve?_eq, ite_eq_right_iff]
  simp only [reduceCtorEq, imp_false, byteLimit]
  omega

/-- The regions that requests add serve, in order, those of them that were granted. -/
theorem exists_granted (m : Memory) (qs : List RegionRequest) :
    ∃ granted new, granted.Sublist qs ∧ (qs.foldl serve m).regions = m.regions ++ new ∧
      List.Forall₂ RegionRequest.Serves granted new := by
  induction qs generalizing m with
  | nil => exact ⟨[], [], .slnil, by simp, .nil⟩
  | cons q qs ih =>
    obtain ⟨granted, new, hsub, hregions, hserves⟩ := ih (m.serve q)
    rw [List.foldl_cons]
    cases hm : m.reserve? q.name q.bytes.toNat q.loc with
    | none =>
      have hsame : m.serve q = m := by rw [serve, hm, Option.getD_none]
      rw [hsame] at hregions ⊢
      exact ⟨granted, new, hsub.cons q, hregions, hserves⟩
    | some m' =>
      obtain ⟨-, rfl⟩ := of_reserve? hm
      refine ⟨q :: granted, ⟨q.name, m.size, wholeCells q.bytes.toNat, q.loc⟩ :: new,
        hsub.cons_cons q, ?_, .cons ⟨rfl, rfl, isLeast_wholeCells _⟩ hserves⟩
      rw [hregions, serve, hm, Option.getD_some, List.append_assoc, List.singleton_append]

end Memory

def IndexedSymbols.ask (s : IndexedSymbols) (q : RegionRequest) : Option Nat × IndexedSymbols :=
  s.add (.memory q.name q.bytes.toNat q.loc)

def Procedure.ask (p : Procedure) (q : RegionRequest) : Option Nat × Procedure :=
  (Procedure.addMemory q.name q.bytes.toNat q.loc).run p

section Requests

variable {α : Type} (memory : α → Memory) (ask : α → RegionRequest → Option Nat × α)

def askAll (a : α) (qs : List RegionRequest) : α :=
  qs.foldl (fun a q => (ask a q).2) a

/-- What holds of something with a memory that tiles its space, and what the next request does.
Where that is refused, all is as before, not the memory alone. -/
structure Allots (a : α) : Prop where
  tiled : (memory a).Tiled
  granted : ∀ q i, (ask a q).1 = some i →
    i = (memory a).regions.length ∧ ∃ size, q.Takes size ∧
      memory (ask a q).2 = ⟨(memory a).regions ++ [⟨q.name, (memory a).size, size, q.loc⟩],
        (memory a).size + size⟩
  refused : ∀ q size, q.Takes size →
    ((ask a q).1 = none ↔ 0xffffffff < size ∨ 0xffffffff < (memory a).size + size)
  unchanged : ∀ q, (ask a q).1 = none → (ask a q).2 = a

/-- What holds from a start on, whatever is asked for. -/
structure AllotsFrom (start : α) : Prop where
  state : ∀ qs, Allots memory ask (askAll ask start qs)
  served : ∀ qs, ∃ granted : List RegionRequest, granted.Sublist qs ∧
    List.Forall₂ RegionRequest.Serves granted (memory (askAll ask start qs)).regions
  kept : ∀ qs more, (memory (askAll ask start qs)).regions <+:
    (memory (askAll ask start (qs ++ more))).regions

variable {memory ask} {set : α → RegionRequest → Memory → α}
  (hask : ∀ a q, ask a q =
    match (memory a).reserve? q.name q.bytes.toNat q.loc with
    | some m => (some (memory a).regions.length, set a q m)
    | none => (none, a))
  (hset : ∀ a q m, memory (set a q m) = m)

include hask hset

theorem memory_ask (a : α) (q : RegionRequest) : memory (ask a q).2 = (memory a).serve q := by
  rw [hask, Memory.serve]
  cases (memory a).reserve? q.name q.bytes.toNat q.loc with
  | none => rfl
  | some m => exact hset a q m

theorem memory_askAll (a : α) (qs : List RegionRequest) :
    memory (askAll ask a qs) = qs.foldl Memory.serve (memory a) := by
  induction qs generalizing a with
  | nil => rfl
  | cons q qs ih =>
    rw [List.foldl_cons, ← memory_ask hask hset, ← ih]
    rfl

theorem allots_of_packed {a : α} (h : (memory a).Packed) : Allots memory ask a where
  tiled := h.tiled
  granted q i hi := by
    rw [hask] at hi ⊢
    cases hm : (memory a).reserve? q.name q.bytes.toNat q.loc with
    | none =>
      rw [hm] at hi
      cases hi
    | some m =>
      rw [hm] at hi
      cases hi
      exact ⟨rfl, _, isLeast_wholeCells _, (hset a q m).trans (Memory.of_reserve? hm).2⟩
  refused q size hsize := by
    rw [hask, ← Memory.reserve?_eq_none_iff hsize]
    cases (memory a).reserve? q.name q.bytes.toNat q.loc <;> simp
  unchanged q hq := by
    rw [hask] at hq ⊢
    cases hm : (memory a).reserve? q.name q.bytes.toNat q.loc with
    | none => rfl
    | some m =>
      rw [hm] at hq
      cases hq

/-- Whatever keeps its regions in a memory allots them from an empty memory on. -/
theorem allotsFrom {start : α} (hstart : memory start = {}) : AllotsFrom memory ask start where
  state qs := by
    refine allots_of_packed hask hset ?_
    rw [memory_askAll hask hset, hstart]
    exact List.foldlRecOn qs _ .empty fun m hm q _ => hm.serve
  served qs := by
    obtain ⟨granted, new, hsub, hregions, hserves⟩ := Memory.exists_granted {} qs
    refine ⟨granted, hsub, ?_⟩
    rw [memory_askAll hask hset, hstart, hregions]
    exact hserves
  kept qs more := by
    rw [memory_askAll hask hset, memory_askAll hask hset, List.foldl_append]
    obtain ⟨_, new, _, hregions, _⟩ :=
      Memory.exists_granted (qs.foldl Memory.serve (memory start)) more
    exact ⟨new, hregions.symm⟩

end Requests

/-! ## Throughout resolution -/

/-- Global memory and all frames have the invariant. -/
def Symbols.Packed (s : Symbols) : Prop :=
  s.memory.Packed ∧ ∀ p ∈ s.procs, p.memory.Packed

namespace Resolution

variable {r r' : Resolution} {eof loc : Location} {rest : List Token} {used : Nat}

theorem packed_frame (h : r.symbols.Packed) {pid : Nat} {p : Procedure}
    (hproc : r.procedure? = some (pid, p)) : p.memory.Packed :=
  h.2 p (List.mem_of_getElem? (procedure?_eq_some.mp hproc).2)

theorem packed_setProcedure (h : r.symbols.Packed) {pid : Nat} {p : Procedure}
    (hp : p.memory.Packed) : (r.setProcedure pid p).symbols.Packed :=
  ⟨h.1, Symbols.forall_modifyProc h.2 hp⟩

theorem Declares.packed {name : String} (hdeclares : Declares r name loc r')
    (h : r.symbols.Packed) : r'.symbols.Packed := by
  cases hdeclares with
  | struct | const | structConst | var | structVar => exact h
  | memory _ hm => exact ⟨h.1.reserve hm, h.2⟩
  | localVar hproc | localStructVar hproc =>
    have hframe := packed_frame h hproc
    exact packed_setProcedure h hframe
  | localMemory hproc hm => exact packed_setProcedure h ((packed_frame h hproc).reserve hm)

/-- A new procedure starts with an empty frame. -/
theorem packed_declareProc {name : String} (h : r.symbols.Packed)
    (hr : r.declareProc name loc rest = .ok (r', used)) : r'.symbols.Packed := by
  obtain ⟨_, p, _, _, hblank, _, _, rfl⟩ := declareProc_eq_ok hr
  refine ⟨h.1, List.forall_mem_append.mpr ⟨h.2, List.forall_mem_singleton.mpr ?_⟩⟩
  rw [hblank.memory]
  exact .empty

theorem Move.packed {t : Token} (hmove : Move eof r t rest r' used)
    (hsym : r.symbols.WellFormed) (h : r.symbols.Packed) : r'.symbols.Packed := by
  cases hmove with
  | literal | string | word | openIf | openElse | closeIf | closeElse | closeProc => exact h
  | openLet _ hp | closeLet _ _ _ hp =>
    have hframe := packed_frame h hp
    exact packed_setProcedure h hframe
  | declare _ _ _ hshape hproc hr =>
    exact (declareShape_declares (Shape.declared_of_classify hsym hshape) hproc hr).packed h
  | declareProc _ _ _ _ hr => exact packed_declareProc h hr

theorem Reaches.packed {ts : List Token} (h : Reaches eof {} ts r rest) : r.symbols.Packed := by
  induction h with
  | start => exact ⟨.empty, by simp⟩
  | step h hstep ih => exact (step_move hstep).packed (h.sound .empty).tables ih

end Resolution

/-- Whatever regions are asked for, in global memory or in the frame of a procedure, they tile their
space: each takes the least number of whole cells and starts where the one before it ends. One is
refused exactly if it or the whole would be past the limit, and then all is as before: the regions,
the names in the index and the total. The memory and the frames of a program that is being resolved
have this form at every point. -/
theorem memory_regions_tile :
    (∀ s : IndexedSymbols, s.symbols.memory = {} →
        AllotsFrom (·.symbols.memory) IndexedSymbols.ask s) ∧
      (∀ p : Procedure, p.memory = {} → AllotsFrom Procedure.memory Procedure.ask p) ∧
      ∀ (s : TokenStream) (r : Resolution) (rest : List Token),
        Resolution.Reaches s.eof {} s.tokens r rest →
          r.symbols.memory.Tiled ∧ ∀ p ∈ r.symbols.procs, p.memory.Tiled := by
  refine ⟨fun s hs => ?_, fun p hp => ?_, fun s r rest h => ?_⟩
  · exact allotsFrom (fun s q => s.run_addMemory _ _ _) (fun _ _ _ => rfl) hs
  · exact allotsFrom (fun p q => p.run_addMemory _ _ _) (fun _ _ _ => rfl) hp
  · exact ⟨h.packed.1.tiled, fun p hp => (h.packed.2 p hp).tiled⟩

/-- Requests up to the limit. The second does not fit in a word once it is rounded, and behind the
third there is no room for a single cell. -/
def largeRequests : List RegionRequest :=
  let loc := ⟨"", 1, 1, ⟨0, 0⟩⟩
  [⟨"head", 5, loc⟩, ⟨"huge", 0xfffffffd, loc⟩, ⟨"body", 0xfffffff3, loc⟩, ⟨"tail", 1, loc⟩]

theorem large_requests_tile :
    (askAll IndexedSymbols.ask {} largeRequests).symbols.memory =
        ⟨[⟨"head", 0, 8, ⟨"", 1, 1, ⟨0, 0⟩⟩⟩, ⟨"body", 8, 0xfffffff4, ⟨"", 1, 1, ⟨0, 0⟩⟩⟩],
          0xfffffffc⟩ ∧
      AllotsFrom (·.symbols.memory) IndexedSymbols.ask {} :=
  ⟨by decide +kernel, memory_regions_tile.1 {} rfl⟩

end StackEffect
