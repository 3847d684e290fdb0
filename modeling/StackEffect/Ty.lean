/-! # Types and folded values

A stack value is an integer, a truth value, an address, or a reference to an instance of a declared
struct. Values known before the program runs are 64-bit words with a type.
-/

namespace StackEffect

/-- The type of a stack value. `struct k` refers to the `k`-th struct declared; `any` is the type of
nothing in particular and equals only itself. -/
inductive Ty
  | int
  | bool
  | ptr
  | any
  | struct (id : Nat)
deriving DecidableEq, Repr

namespace Ty

def text : Ty → String
  | int => "int"
  | bool => "bool"
  | ptr => "ptr"
  | any => "any"
  | struct id => s!"struct#{id}"

def isStruct : Ty → Bool
  | struct _ => true
  | _ => false

end Ty

structure Value where
  bits : Int64
  ty : Ty
deriving DecidableEq, Repr

namespace Value

def int (n : Int64) : Value :=
  ⟨n, .int⟩

/-- A truth value is stored as zero or one. -/
def bool (b : Bool) : Value :=
  ⟨if b then 1 else 0, .bool⟩

def ptr (n : Int64) : Value :=
  ⟨n, .ptr⟩

/-- What a variable without initializer starts with. -/
def zero (ty : Ty) : Value :=
  ⟨0, ty⟩

end Value

end StackEffect
