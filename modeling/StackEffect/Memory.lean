import StackEffect.Location

/-! # Memory regions

Memory is handed out in cells of four bytes, one region behind the other. Neither a region nor the
whole may be larger than a 32-bit word can say.
-/

namespace StackEffect

/-- The bytes of a stack cell, and of a struct member. -/
def cellSize : Nat := 4

/-- The largest size, in bytes, of a memory region and of all regions together. -/
def byteLimit : Nat := 0xffffffff

/-- The least number of bytes that fills whole cells and holds `size`, if it is within the limit. -/
def roundToCell? (size : Nat) : Option Nat :=
  let rounded := (size + (cellSize - 1)) / cellSize * cellSize
  if rounded ≤ byteLimit then some rounded else none

structure Region where
  name : String
  offset : Nat
  size : Nat
  loc : Location
deriving DecidableEq, Repr

structure Memory where
  regions : List Region := []
  size : Nat := 0
deriving DecidableEq, Repr

namespace Memory

/-- Hands out a region behind all others. Fails, and so changes nothing, when the rounded region or
the new total is past the limit. -/
def reserve? (m : Memory) (name : String) (bytes : Nat) (loc : Location) : Option Memory :=
  match roundToCell? bytes with
  | none => none
  | some size =>
    if m.size + size ≤ byteLimit then
      some ⟨m.regions ++ [⟨name, m.size, size, loc⟩], m.size + size⟩
    else none

end Memory

end StackEffect
