/-! # Ranges of code points

A class of characters is given as a list of ranges in increasing order.
-/

namespace StackEffect

/-- Whether a code point lies in one of some increasing ranges, both ends of which count. -/
def inRanges (code : Nat) : List (Nat × Nat) → Bool
  | [] => false
  | (low, high) :: rest =>
    if code < low then false else if code ≤ high then true else inRanges code rest

end StackEffect
