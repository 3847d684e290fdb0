import Mathlib.Tactic.Common
import StackEffect.Proofs.Pass

/-! # What the counters of the stack measure

The checker keeps two counters for the block under way, puts them away when a block is opened and
mends them when it is closed. Here they are compared with the lengths that the stack really takes
on: the height is the change of the length since the region under way was entered, and the low mark
is the least such change, in all operations since then and in all blocks among them.
-/

namespace StackEffect

/-- The least of zero and the differences between some lengths and the length `base`. -/
def lowest (base : Nat) : List Nat → Int
  | [] => 0
  | n :: lengths => min ((n : Int) - base) (lowest base lengths)

theorem lowest_nonpos (base : Nat) (lengths : List Nat) : lowest base lengths ≤ 0 := by
  induction lengths with
  | nil => exact Int.le_refl 0
  | cons n lengths ih =>
    rw [lowest]
    omega

theorem lowest_append (base : Nat) (as bs : List Nat) :
    lowest base (as ++ bs) = min (lowest base as) (lowest base bs) := by
  induction as with
  | nil =>
    have := lowest_nonpos base bs
    simp only [List.nil_append, lowest]
    omega
  | cons n as ih =>
    simp only [List.cons_append, lowest, ih]
    omega

/-- Lengths compared with one base and then with another. -/
theorem lowest_shift (base other : Nat) (lengths : List Nat) :
    min ((other : Int) - base + lowest other lengths) 0 =
      min ((other : Int) - base) (lowest base lengths) := by
  induction lengths with
  | nil => simp [lowest]
  | cons n lengths ih =>
    simp only [lowest]
    omega

theorem lowest_le (base : Nat) {n : Nat} {lengths : List Nat} (h : n ∈ lengths) :
    lowest base lengths ≤ (n : Int) - base := by
  induction lengths with
  | nil => cases h
  | cons m lengths ih =>
    rw [lowest]
    rcases List.mem_cons.mp h with rfl | h
    · omega
    · have := ih h
      omega

theorem le_lowest {base : Nat} {bound : Int} {lengths : List Nat} (hbound : bound ≤ 0)
    (h : ∀ n ∈ lengths, bound ≤ (n : Int) - base) : bound ≤ lowest base lengths := by
  induction lengths with
  | nil => exact hbound
  | cons n lengths ih =>
    obtain ⟨hn, hlengths⟩ := List.forall_mem_cons.mp h
    have := ih hlengths
    rw [lowest]
    omega

theorem neg_base_le_lowest (base : Nat) (lengths : List Nat) :
    -(base : Int) ≤ lowest base lengths :=
  le_lowest (by omega) fun n _ => by omega

namespace CheckState

def size (st : CheckState) : Nat :=
  st.stack.frames.length

/-- The lengths that the stack takes on at an operation: below its operands, and behind it. -/
def lengthsAt (sym : Symbols) (ops : List Op) (k : Nat) : List Nat :=
  match ops[k]? with
  | none => []
  | some op => [(before sym ops k).size - op.kind.operands sym, (before sym ops (k + 1)).size]

/-- The lengths that the stack takes on at the operations from `a` up to, and without, `b`. -/
def lengthsIn (sym : Symbols) (ops : List Op) (a b : Nat) : List Nat :=
  (List.range' a (b - a)).flatMap (lengthsAt sym ops)

/-- The operations that entered the regions under way, innermost first, when `starts` were under way
before. A region is the body of a procedure or one branch of an `if`. -/
def enterRegion (index : Nat) (kind : OpKind) (starts : List Nat) : List Nat :=
  match kind with
  | .procBegin _ | .ifBegin => index :: starts
  | .ifElse _ => index :: starts.tail
  | .ifEnd _ | .elseEnd _ | .procEnd _ _ => starts.tail
  | _ => starts

/-- The operations that entered the regions under way behind a list of operations. -/
def openRegions (ops : List Op) : List Nat :=
  ops.zipIdx.foldl (fun starts entry => enterRegion entry.2 entry.1.kind starts) []

variable {sym : Symbols} {ops : List Op} {contracts : ContractTable} {op : Op} {a b k : Nat}

theorem openRegions_succ (hop : ops[k]? = some op) :
    openRegions (ops.take (k + 1)) = enterRegion k op.kind (openRegions (ops.take k)) := by
  have hlt : k ≤ ops.length := Nat.le_of_lt (List.getElem?_eq_some_iff.mp hop).1
  rw [List.take_add_one, hop, Option.toList_some]
  simp [openRegions, List.zipIdx_append, Nat.min_eq_left hlt]

theorem lengthsIn_self (a : Nat) : lengthsIn sym ops a a = [] := by
  simp [lengthsIn]

theorem lengthsIn_succ (h : a ≤ b) :
    lengthsIn sym ops a (b + 1) = lengthsIn sym ops a b ++ lengthsAt sym ops b := by
  have hlen : b + 1 - a = b - a + 1 := by omega
  have hlast : a + (b - a) = b := by omega
  simp [lengthsIn, hlen, List.range'_concat, hlast]

theorem lengthsIn_append {c : Nat} (hab : a ≤ b) (hbc : b ≤ c) :
    lengthsIn sym ops a c = lengthsIn sym ops a b ++ lengthsIn sym ops b c := by
  have hlen : c - a = (b - a) + (c - b) := by omega
  have hmid : a + (b - a) = b := by omega
  simp only [lengthsIn, hlen, ← List.range'_append_1, hmid, List.flatMap_append]

variable (sym) in
theorem lengthsAt_of (hop : ops[k]? = some op) : lengthsAt sym ops k =
    [(before sym ops k).size - op.kind.operands sym, (before sym ops (k + 1)).size] := by
  simp [lengthsAt, hop]

/-- The counters of a stack measure, at operation `k`, the region that operation `start` entered. -/
structure Measures (sym : Symbols) (ops : List Op) (start k : Nat) (stack : TypeStack) : Prop where
  lt : start < k
  height : stack.height = stack.frames.length - (before sym ops (start + 1)).size
  low : stack.low = lowest (before sym ops (start + 1)).size (lengthsIn sym ops (start + 1) k)
  settled : stack.Settled

/-- A region has just been entered. -/
theorem Measures.enter (stack : TypeStack)
    (h : (before sym ops (k + 1)).stack = stack.resetCounters) :
    Measures sym ops k (k + 1) (before sym ops (k + 1)).stack where
  lt := Nat.lt_succ_self k
  height := by simp [h, size, TypeStack.resetCounters]
  low := by rw [lengthsIn_self, h, lowest, TypeStack.resetCounters]
  settled := by simp [h, TypeStack.Settled, TypeStack.resetCounters]

/-- An operation that takes values and leaves others, in the region under way. -/
theorem Measures.extend {start count : Nat} {stack after : TypeStack} (res : List Frame)
    (h : Measures sym ops start k stack) (hcount : count ≤ stack.frames.length)
    (hafter : after = (stack.popped count).pushAll res)
    (hat : lengthsAt sym ops k = [stack.frames.length - count, after.frames.length]) :
    Measures sym ops start (k + 1) after := by
  obtain ⟨hlt, hheight, hlow, hsettled⟩ := h
  rw [TypeStack.pushAll_eq] at hafter
  have hframes : after.frames.length = res.length + (stack.frames.length - count) := by
    simp [hafter, TypeStack.popped]
  refine ⟨by omega, ?_, ?_, ?_⟩
  · rw [hframes, hafter]
    simp only [TypeStack.popped]
    omega
  · rw [lengthsIn_succ hlt, lowest_append, hat, ← hlow, lowest, lowest, lowest, hframes, hafter]
    have hnonpos := lowest_nonpos (before sym ops (start + 1)).size
      (lengthsIn sym ops (start + 1) k)
    simp only [TypeStack.popped]
    omega
  · simp only [hafter, TypeStack.Settled, TypeStack.popped]
    omega

/-- A block counts as one step of the region around it. -/
theorem Measures.absorb {start i ins outs : Nat} {entry stack : TypeStack}
    (h : Measures sym ops start (i + 1) entry) (hik : i < k)
    (hentry : entry.frames.length = (before sym ops (i + 1)).size)
    (hins : (ins : Int) = -lowest (before sym ops (i + 1)).size (lengthsIn sym ops (i + 1) (k + 1)))
    (houts : (outs : Int) = ins + (stack.frames.length - (before sym ops (i + 1)).size)) :
    Measures sym ops start (k + 1) ((stack.restoreCounters entry).absorb ins outs) := by
  obtain ⟨hlt, hheight, hlow, hsettled⟩ := h
  refine ⟨by omega, ?_, ?_, ?_⟩
  · simp only [TypeStack.absorb, TypeStack.restoreCounters]
    omega
  · rw [lengthsIn_append hlt (by omega : i + 1 ≤ k + 1), lowest_append, ← hlow]
    have hshift := lowest_shift (before sym ops (start + 1)).size (before sym ops (i + 1)).size
      (lengthsIn sym ops (i + 1) (k + 1))
    have hnonpos := lowest_nonpos (before sym ops (start + 1)).size
      (lengthsIn sym ops (start + 1) (i + 1))
    unfold TypeStack.Settled at hsettled
    simp only [TypeStack.absorb, TypeStack.restoreCounters]
    omega
  · simp only [TypeStack.Settled, TypeStack.absorb, TypeStack.restoreCounters]
    omega

/-- The regions under way at operation `k`. For each open `if` the stack that was put away measures
the region around it, and once the first branch has ended its end is that of the pass at `else`. -/
inductive Regions (sym : Symbols) (ops : List Op) : Nat → TypeStack → List Branch → List Nat → Prop
  | body {k start : Nat} {stack : TypeStack} (h : Measures sym ops start k stack) :
      Regions sym ops k stack [] [start]
  | thenBranch {k : Nat} {stack : TypeStack} {b : Branch} {branches : List Branch}
      {starts : List Nat} (h : Measures sym ops b.opener k stack) (hend : b.thenEnd = none)
      (hentry : (before sym ops (b.opener + 1)).stack.frames = b.entry.frames)
      (hrest : Regions sym ops (b.opener + 1) b.entry branches starts) :
      Regions sym ops k stack (b :: branches) (b.opener :: starts)
  | elseBranch {k start : Nat} {stack : TypeStack} {b : Branch} {branches : List Branch}
      {starts : List Nat} {thenEnd : BranchEnd} (h : Measures sym ops start k stack)
      (hend : b.thenEnd = some thenEnd) (hopener : b.opener < start)
      (hop : (ops[start]?).map (·.kind) = some (.ifElse b.opener))
      (hentry : (before sym ops (b.opener + 1)).stack.frames = b.entry.frames)
      (hagain : (before sym ops (start + 1)).stack.frames = b.entry.frames)
      (hthen : Measures sym ops b.opener start (before sym ops start).stack)
      (htypes : thenEnd.types = (before sym ops start).stack.types)
      (hheight : thenEnd.height = (before sym ops start).stack.height)
      (hlow : thenEnd.low = (before sym ops start).stack.low)
      (hrest : Regions sym ops (b.opener + 1) b.entry branches starts) :
      Regions sym ops k stack (b :: branches) (start :: starts)

/-- Where a pass stands: outside of every procedure, or in regions whose sizes are counted. -/
inductive Located (sym : Symbols) (ops : List Op) (k : Nat) (st : CheckState) : List Nat → Prop
  | outside (hc : st.current = none) (hb : st.branches = []) : Located sym ops k st []
  | inside {starts : List Nat} (hc : st.current ≠ none)
      (h : Regions sym ops k st.stack st.branches starts) : Located sym ops k st starts

theorem Located.regions {st : CheckState} {starts : List Nat} (h : Located sym ops k st starts)
    (hc : st.current ≠ none) : Regions sym ops k st.stack st.branches starts := by
  cases h with
  | outside hnone => exact absurd hnone hc
  | inside _ h => exact h

theorem Regions.measures {stack : TypeStack} {branches : List Branch} {starts : List Nat}
    (h : Regions sym ops k stack branches starts) :
    ∃ start outer, starts = start :: outer ∧ Measures sym ops start k stack := by
  cases h with
  | body h => exact ⟨_, _, rfl, h⟩
  | thenBranch h hend hentry hrest => exact ⟨_, _, rfl, h⟩
  | elseBranch h => exact ⟨_, _, rfl, h⟩

/-- The regions around the innermost one stay as they are while that one is followed. -/
theorem Regions.follow {i : Nat} {stack after : TypeStack} {branches : List Branch}
    {starts : List Nat} (h : Regions sym ops i stack branches starts)
    (hstep : ∀ start, Measures sym ops start i stack → Measures sym ops start k after) :
    Regions sym ops k after branches starts := by
  cases h with
  | body h => exact .body (hstep _ h)
  | thenBranch h hend hentry hrest => exact .thenBranch (hstep _ h) hend hentry hrest
  | elseBranch h hend hopener hop hentry hagain hthen htypes hheight hlow hrest =>
    exact .elseBranch (hstep _ h) hend hopener hop hentry hagain hthen htypes hheight hlow hrest

/-- The contract of the `if` at `i` without `else`, closed at `k`: it takes as many values as the
branch dips below the height at which it is entered, and leaves as many. -/
structure BareBlock (sym : Symbols) (ops : List Op) (i k : Nat) (c : BlockContract) : Prop where
  closed : (ops[k]?).map (·.kind) = some (.ifEnd i)
  lt : i < k
  ins : (c.ins : Int) =
    -lowest (before sym ops (i + 1)).size (lengthsIn sym ops (i + 1) k)
  ins_le : c.ins ≤ (before sym ops (i + 1)).size
  outs : (c.outs : Int) = c.ins + ((before sym ops (k + 1)).size - (before sym ops (i + 1)).size)
  same : c.ins = c.outs

/-- The contract of the `if` at `i` with an `else` at `j`, closed at `k`: it takes as many values as
the deeper of the two branches dips below the height at which both are entered, and leaves as many
more or less as both branches end higher or lower. -/
structure ElseBlock (sym : Symbols) (ops : List Op) (i j k : Nat) (c : BlockContract) : Prop where
  middle : (ops[j]?).map (·.kind) = some (.ifElse i)
  closed : (ops[k]?).map (·.kind) = some (.elseEnd i)
  lt_middle : i < j
  middle_lt : j < k
  entered : (before sym ops (j + 1)).size = (before sym ops (i + 1)).size
  ended : (before sym ops j).size = (before sym ops k).size
  ins : (c.ins : Int) = -min
    (lowest (before sym ops (i + 1)).size (lengthsIn sym ops (i + 1) j))
    (lowest (before sym ops (j + 1)).size (lengthsIn sym ops (j + 1) k))
  ins_le : c.ins ≤ (before sym ops (i + 1)).size
  outs : (c.outs : Int) = c.ins + ((before sym ops (k + 1)).size - (before sym ops (i + 1)).size)

variable (sym) in
/-- An operation that closes or continues a block takes nothing from the stack. -/
theorem lengthsAt_block (hop : ops[k]? = some op) (hop' : op.kind.operands sym = 0) :
    lengthsAt sym ops k = [(before sym ops k).size, (before sym ops (k + 1)).size] := by
  rw [lengthsAt_of sym hop, hop', Nat.sub_zero]

theorem BareBlock.of_measures {i : Nat} {c : BlockContract} (hop : ops[k]? = some op)
    (hkind : op.kind = .ifEnd i) (h : Measures sym ops i k (before sym ops k).stack)
    (hsize : (before sym ops k).size = (before sym ops (i + 1)).size)
    (hafter : (before sym ops (k + 1)).size = (before sym ops k).size)
    (hc : c = ⟨(-(before sym ops k).stack.low).toNat,
      ((-(before sym ops k).stack.low).toNat + (before sym ops k).stack.height).toNat⟩) :
    BareBlock sym ops i k c := by
  obtain ⟨hlt, hheight, hlow, hsettled⟩ := h
  have hnonpos := lowest_nonpos (before sym ops (i + 1)).size (lengthsIn sym ops (i + 1) k)
  have hbound := neg_base_le_lowest (before sym ops (i + 1)).size (lengthsIn sym ops (i + 1) k)
  have hflat : (before sym ops k).stack.height = 0 := by
    rw [hheight]
    unfold size at hsize ⊢
    omega
  rw [hflat, hlow] at hc
  refine ⟨by rw [hop, Option.map_some, hkind], hlt, ?_, ?_, ?_, ?_⟩ <;> simp only [hc] <;> omega

theorem ElseBlock.of_measures {i j : Nat} {c : BlockContract}
    (hmiddle : (ops[j]?).map (·.kind) = some (.ifElse i)) (hop : ops[k]? = some op)
    (hkind : op.kind = .elseEnd i)
    (hthen : Measures sym ops i j (before sym ops j).stack)
    (helse : Measures sym ops j k (before sym ops k).stack)
    (hentered : (before sym ops (j + 1)).size = (before sym ops (i + 1)).size)
    (hended : (before sym ops j).size = (before sym ops k).size)
    (hafter : (before sym ops (k + 1)).size = (before sym ops k).size)
    (hc : c = ⟨(-min (before sym ops j).stack.low (before sym ops k).stack.low).toNat,
      (max (before sym ops j).stack.height (before sym ops k).stack.height -
        min (before sym ops j).stack.low (before sym ops k).stack.low).toNat⟩) :
    ElseBlock sym ops i j k c := by
  obtain ⟨hlt, hheight, hlow, hsettled⟩ := hthen
  obtain ⟨hlt', hheight', hlow', hsettled'⟩ := helse
  have hbound := neg_base_le_lowest (before sym ops (i + 1)).size (lengthsIn sym ops (i + 1) j)
  have hbound' := neg_base_le_lowest (before sym ops (j + 1)).size (lengthsIn sym ops (j + 1) k)
  have hnonpos := lowest_nonpos (before sym ops (i + 1)).size (lengthsIn sym ops (i + 1) j)
  have hrise : (before sym ops j).stack.height = (before sym ops k).stack.height := by
    rw [hheight, hheight']
    unfold size at *
    omega
  unfold TypeStack.Settled at hsettled'
  rw [hrise, hheight', hlow, hlow'] at hc
  refine ⟨hmiddle, by rw [hop, Option.map_some, hkind], hlt, hlt', hentered, hended, ?_, ?_, ?_⟩ <;>
    simp only [hc] <;> unfold size at * <;> omega

/-- A bare block that is closed dips as deep in all its operations as its branch does. -/
theorem BareBlock.lowest_eq {i : Nat} {c : BlockContract} (h : BareBlock sym ops i k c)
    (hsize : (before sym ops (k + 1)).size = (before sym ops k).size) :
    (c.ins : Int) =
      -lowest (before sym ops (i + 1)).size (lengthsIn sym ops (i + 1) (k + 1)) := by
  obtain ⟨op, hop, hkind⟩ := Option.map_eq_some_iff.mp h.closed
  have hat := lengthsAt_block sym hop (by rw [hkind]; rfl)
  have hins := h.ins
  have houts := h.outs
  have hsame := h.same
  have hnonpos := lowest_nonpos (before sym ops (i + 1)).size (lengthsIn sym ops (i + 1) k)
  have hle : i + 1 ≤ k := h.lt
  rw [lengthsIn_succ hle, lowest_append, hat, lowest, lowest, lowest]
  omega

/-- A block with two branches dips as deep in all its operations as the deeper branch does. -/
theorem ElseBlock.lowest_eq {i j : Nat} {c : BlockContract} (h : ElseBlock sym ops i j k c)
    (hsize : (before sym ops (k + 1)).size = (before sym ops k).size) :
    (c.ins : Int) =
      -lowest (before sym ops (i + 1)).size (lengthsIn sym ops (i + 1) (k + 1)) := by
  obtain ⟨middle, hmiddle, hmkind⟩ := Option.map_eq_some_iff.mp h.middle
  obtain ⟨op, hop, hkind⟩ := Option.map_eq_some_iff.mp h.closed
  have hat := lengthsAt_block sym hop (by rw [hkind]; rfl)
  have hat' := lengthsAt_block sym hmiddle (by rw [hmkind]; rfl)
  have hins := h.ins
  have houts := h.outs
  have hended := h.ended
  have hentered := h.entered
  have hnonpos := lowest_nonpos (before sym ops (i + 1)).size (lengthsIn sym ops (i + 1) j)
  have hij : i + 1 ≤ j := h.lt_middle
  have hjk : j + 1 ≤ k := h.middle_lt
  rw [lengthsIn_succ (by omega : i + 1 ≤ k), lengthsIn_append hij (by omega : j ≤ k),
    lengthsIn_append (by omega : j ≤ j + 1) hjk, lengthsIn_succ (Nat.le_refl j), lengthsIn_self]
  simp only [lowest_append, hat, hat', lowest, List.nil_append]
  rw [hentered] at hins
  omega

/-- The contract that is read off the counters when a bare block is closed. -/
theorem Regions.bareBlock {b : Branch} {branches : List Branch} {starts : List Nat}
    (h : Regions sym ops k (before sym ops k).stack (b :: branches) starts)
    (hop : ops[k]? = some op) (hkind : op.kind = .ifEnd b.opener) (hend : b.thenEnd = none)
    (htypes : b.entry.types = (before sym ops k).stack.types)
    (hafter : (before sym ops (k + 1)).size = (before sym ops k).size) :
    BareBlock sym ops b.opener k ⟨(-(before sym ops k).stack.low).toNat,
      ((-(before sym ops k).stack.low).toNat + (before sym ops k).stack.height).toNat⟩ := by
  cases h with
  | elseBranch _ hend' => simp [hend] at hend'
  | thenBranch hmeasure _ hentry hrest =>
    refine BareBlock.of_measures hop hkind hmeasure ?_ hafter rfl
    have hlen := congrArg List.length htypes
    simpa [size, hentry, TypeStack.types_length] using hlen.symm

/-- The contract that is read off the counters when a block with two branches is closed. -/
theorem Regions.elseBlock {b : Branch} {branches : List Branch} {starts : List Nat}
    {thenEnd : BranchEnd} (h : Regions sym ops k (before sym ops k).stack (b :: branches) starts)
    (hop : ops[k]? = some op) (hkind : op.kind = .elseEnd b.opener)
    (hend : b.thenEnd = some thenEnd) (htypes : thenEnd.types = (before sym ops k).stack.types)
    (hafter : (before sym ops (k + 1)).size = (before sym ops k).size) :
    ∃ j, ElseBlock sym ops b.opener j k
      ⟨(-min thenEnd.low (before sym ops k).stack.low).toNat,
        (max thenEnd.height (before sym ops k).stack.height -
          min thenEnd.low (before sym ops k).stack.low).toNat⟩ := by
  cases h with
  | thenBranch _ hend' => simp [hend] at hend'
  | @elseBranch _ j _ _ _ _ thenEnd' hmeasure hend' hopener hmiddle hentry hagain hthen htypes'
      hheight hlow hrest =>
    obtain rfl : thenEnd' = thenEnd := by simpa [hend] using hend'.symm
    rw [hheight, hlow]
    refine ⟨j, ElseBlock.of_measures hmiddle hop hkind hthen hmeasure ?_ ?_ hafter rfl⟩
    · simp [size, hentry, hagain]
    · have hlen := congrArg List.length (htypes'.symm.trans htypes)
      simpa [size, TypeStack.types_length] using hlen

/-- The regions around a block that is open, and the stack that was put away for them. -/
theorem Regions.outer {stack : TypeStack} {b : Branch} {branches : List Branch}
    {starts : List Nat} (h : Regions sym ops k stack (b :: branches) starts) :
    b.opener < k ∧ b.entry.frames.length = (before sym ops (b.opener + 1)).size ∧
      Regions sym ops (b.opener + 1) b.entry branches starts.tail := by
  cases h with
  | thenBranch hmeasure _ hentry hrest => exact ⟨hmeasure.lt, by rw [← hentry]; rfl, hrest⟩
  | elseBranch hmeasure _ hopener _ hentry _ _ _ _ _ hrest =>
    exact ⟨Nat.lt_trans hopener hmeasure.lt, by rw [← hentry]; rfl, hrest⟩

/-- A block that is closed is one step of the region around it. -/
theorem Regions.closed {stack : TypeStack} {b : Branch} {branches : List Branch}
    {starts : List Nat} {c : BlockContract} (h : Regions sym ops k stack (b :: branches) starts)
    (hins : (c.ins : Int) = -lowest (before sym ops (b.opener + 1)).size
      (lengthsIn sym ops (b.opener + 1) (k + 1)))
    (houts : (c.outs : Int) = c.ins +
      ((before sym ops (k + 1)).size - (before sym ops (b.opener + 1)).size))
    (hafter : (before sym ops (k + 1)).size = stack.frames.length) :
    Regions sym ops (k + 1) ((stack.restoreCounters b.entry).absorb c.ins c.outs) branches
      starts.tail := by
  obtain ⟨hlt, hentry, hrest⟩ := h.outer
  rw [hafter] at houts
  exact hrest.follow fun start hstart => hstart.absorb hlt hentry hins houts

/-- One move keeps the regions and what the counters measure. -/
theorem Located.move {starts : List Nat} (hop : ops[k]? = some op)
    (h : Located sym ops k (before sym ops k) starts)
    (hm : Move sym k (before sym ops k) op (before sym ops (k + 1))) :
    Located sym ops (k + 1) (before sym ops (k + 1)) (enterRegion k op.kind starts) := by
  have hat := lengthsAt_of sym hop
  generalize hnext : before sym ops (k + 1) = next at hm hat ⊢
  cases hm with
  | @plain kind loc args rest res hk hc hf hlen hout =>
    have hstarts : enterRegion k kind starts = starts := by
      cases kind <;> first | rfl | cases hk
    rw [hstarts]
    refine .inside hc ((h.regions hc).follow fun start hmeasure => ?_)
    exact hmeasure.extend res (by simp [hf]) rfl (by rw [hat, ← hlen]; rfl)
  | @ifBegin loc f rest hc hf hty =>
    have hmeasure : Measures sym ops k (k + 1) (before sym ops (k + 1)).stack :=
      .enter ((before sym ops k).stack.popped 1) (by rw [hnext])
    rw [hnext] at hmeasure
    refine .inside hc (.thenBranch (b := ⟨k, loc, _, _, none⟩) hmeasure rfl
      (by rw [hnext]; rfl) ?_)
    exact (h.regions hc).follow fun start hstart =>
      hstart.extend [] (by simp [hf]) rfl (by rw [hat]; rfl)
  | @ifElse loc b branches hc hb hend thenEnd hthen =>
    have hregions := h.regions hc
    rw [hb] at hregions
    cases hregions with
    | @elseBranch _ start _ _ _ starts thenEnd' _ hend' => simp [hend] at hend'
    | @thenBranch _ _ _ _ starts hmeasure _ hentry hrest =>
      have hnew : Measures sym ops k (k + 1) (before sym ops (k + 1)).stack :=
        .enter b.entry (by rw [hnext])
      rw [hnext] at hnew
      refine .inside hc (.elseBranch (b := { b with thenEnd := some thenEnd }) hnew rfl
        hmeasure.lt (by rw [hop]; rfl) hentry (by rw [hnext]; rfl) hmeasure ?_ ?_ ?_ hrest) <;>
        rw [hthen]
  | @ifEnd loc b branches hc hb hend htypes =>
    have hregions := h.regions hc
    rw [hb] at hregions
    have hafter : (before sym ops (k + 1)).size = (before sym ops k).size := by rw [hnext]; rfl
    have hblock := hregions.bareBlock hop rfl hend htypes hafter
    exact .inside hc (hregions.closed (hblock.lowest_eq hafter) hblock.outs hafter)
  | @elseEnd loc b branches thenEnd hc hb hend htypes =>
    have hregions := h.regions hc
    rw [hb] at hregions
    have hafter : (before sym ops (k + 1)).size = (before sym ops k).size := by rw [hnext]; rfl
    obtain ⟨j, hblock⟩ := hregions.elseBlock hop rfl hend htypes hafter
    exact .inside hc (hregions.closed (hblock.lowest_eq hafter) hblock.outs hafter)
  | @bind loc args rest hc hf =>
    refine .inside hc ((h.regions hc).follow fun start hmeasure => ?_)
    exact hmeasure.extend [] (by simp [hf]) rfl (by rw [hat]; rfl)
  | @unbind loc count hc hcount =>
    refine .inside hc ((h.regions hc).follow fun start hmeasure => ?_)
    exact hmeasure.extend [] (Nat.zero_le _)
      (by rw [TypeStack.popped_zero hmeasure.settled]; rfl) (by rw [hat]; rfl)
  | @procBegin loc id p hc hp =>
    cases h with
    | inside hsome _ => exact absurd hc hsome
    | outside _ hb =>
      have hmeasure : Measures sym ops k (k + 1) (before sym ops (k + 1)).stack :=
        .enter (.seed p.ins p.loc) (by rw [hnext]; rfl)
      rw [hnext] at hmeasure
      refine .inside (by simp) ?_
      rw [hb]
      exact .body hmeasure
  | @procEnd loc id frame p hc hp hb htypes =>
    have hregions := h.regions hc
    rw [hb] at hregions
    cases hregions with
    | body _ => exact .outside rfl hb

/-- At every point of an accepted pass the counters measure the region under way. -/
theorem Accepts.located (h : Accepts sym ops contracts) (hk : k ≤ ops.length) :
    Located sym ops k (before sym ops k) (openRegions (ops.take k)) := by
  refine (h.induct (P := fun k st => Located sym ops k st (openRegions (ops.take k)))
    (.outside rfl rfl) (fun k op hop _ hP hmove => ?_) k hk).2
  rw [openRegions_succ hop]
  exact hP.move hop hmove

end CheckState

end StackEffect
