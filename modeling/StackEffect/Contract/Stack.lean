import StackEffect.Location
import StackEffect.Ty

/-! # Stacks of types

The stack of types that a program would have at run time, with two counters that measure the effect
of the block under way: how far the stack has risen since the block began, and how far it has dipped
at the lowest.
-/

namespace StackEffect

/-- The type of a stack value, and the place that pushed it. -/
structure Frame where
  ty : Ty
  loc : Location
deriving DecidableEq, Repr

/-- A stack of types, top first. `height` is its height relative to the start of the block under
way, and `low` the least height since then. -/
structure TypeStack where
  frames : List Frame := []
  height : Int := 0
  low : Int := 0
deriving DecidableEq, Repr

namespace TypeStack

def types (s : TypeStack) : List Ty :=
  (s.frames.map (·.ty)).reverse

def resetCounters (s : TypeStack) : TypeStack :=
  { s with height := 0, low := 0 }

def seed (types : List Ty) (loc : Location) : TypeStack :=
  { frames := (types.map (⟨·, loc⟩)).reverse }

def push (s : TypeStack) (f : Frame) : TypeStack :=
  { s with frames := f :: s.frames, height := s.height + 1 }

def pushAll (s : TypeStack) (fs : List Frame) : TypeStack :=
  fs.foldl push s

def pop? (s : TypeStack) : Option (Frame × TypeStack) :=
  match s.frames with
  | [] => none
  | f :: frames => some (f, ⟨frames, s.height - 1, min s.low (s.height - 1)⟩)

/-- Pops values, and lists them bottom first. -/
def popMany? : Nat → TypeStack → Option (List Frame × TypeStack)
  | 0, s => some ([], s)
  | n + 1, s =>
    match s.pop? with
    | none => none
    | some (f, s) => (popMany? n s).map fun popped => (popped.1 ++ [f], popped.2)

/-- The value `depth` places below the top. -/
def peek? (s : TypeStack) (depth : Nat) : Option Frame :=
  s.frames[depth]?

def restoreCounters (s counted : TypeStack) : TypeStack :=
  { s with height := counted.height, low := counted.low }

/-- Counts a nested block that took `ins` values and left `outs`. -/
def absorb (s : TypeStack) (ins outs : Nat) : TypeStack :=
  { s with height := s.height - ins + outs, low := min s.low (s.height - ins) }

/-- Counts a nested block whose numbers are given as 64-bit words. They are read with a sign, and
the counters wrap around as such words do. -/
def absorbWords (s : TypeStack) (ins outs : UInt64) : TypeStack :=
  let least := Int64.ofInt s.height - ins.toInt64
  { s with height := (least + outs.toInt64).toInt, low := min s.low least.toInt }

theorem toInt_toInt64 (w : UInt64) : w.toInt64.toInt = (w.toNat : Int).bmod Int64.size := by
  rw [← Int64.toInt_toBitVec, UInt64.toBitVec_toInt64, BitVec.toInt_eq_toNat_bmod]
  rfl

/-- As long as no counter leaves its word, words count what numbers count. -/
theorem absorbWords_eq_absorb {s : TypeStack} {ins outs : UInt64}
    (hleast : -0x8000000000000000 ≤ s.height - ins.toNat)
    (hheight : s.height - ins.toNat + outs.toNat < 0x8000000000000000) :
    s.absorbWords ins outs = s.absorb ins.toNat outs.toNat := by
  have hsize : Int64.size = 0x10000000000000000 := rfl
  have hstart : (Int64.ofInt s.height).toInt = s.height.bmod Int64.size := Int64.toInt_ofInt
  have hins : (Int64.ofInt s.height - ins.toInt64).toInt = s.height - ins.toNat := calc
    _ = (s.height.bmod Int64.size - (ins.toNat : Int).bmod Int64.size).bmod Int64.size := by
      rw [← hstart, ← toInt_toInt64]
      exact Int64.toInt_sub _ _
    _ = (s.height - ins.toNat).bmod Int64.size := by rw [Int.bmod_sub_bmod, Int.sub_bmod_bmod]
    _ = s.height - ins.toNat := by
      rw [hsize]
      exact Int.bmod_eq_of_le (by omega) (by omega)
  have houts : (Int64.ofInt s.height - ins.toInt64 + outs.toInt64).toInt =
      s.height - ins.toNat + outs.toNat := calc
    _ = (s.height - ins.toNat + (outs.toNat : Int).bmod Int64.size).bmod Int64.size := by
      rw [← hins, ← toInt_toInt64]
      exact Int64.toInt_add _ _
    _ = (s.height - ins.toNat + outs.toNat).bmod Int64.size := by rw [Int.add_bmod_bmod]
    _ = s.height - ins.toNat + outs.toNat := by
      rw [hsize]
      exact Int.bmod_eq_of_le (by omega) (by omega)
  rw [absorbWords, absorb, hins, houts]

end TypeStack

end StackEffect
