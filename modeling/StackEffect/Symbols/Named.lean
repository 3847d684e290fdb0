/-! # Tables of named entries

A table is a list in the order of declaration. Names may repeat, so there are two ways to look one
up: the first entry with a name and the last.
-/

namespace StackEffect

class Named (α : Type) where
  name : α → String

namespace Named

variable {α : Type} [Named α]

def first? (wanted : String) : List α → Option (Nat × α)
  | [] => none
  | a :: as =>
    if name a = wanted then some (0, a)
    else (first? wanted as).map fun found => (found.1 + 1, found.2)

def last? (wanted : String) : List α → Option (Nat × α)
  | [] => none
  | a :: as =>
    match last? wanted as with
    | some found => some (found.1 + 1, found.2)
    | none => if name a = wanted then some (0, a) else none

end Named

end StackEffect
