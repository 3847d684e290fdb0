/-! # Places in a source text

A place names a file, a byte span in it, and the line and column at which the span starts. Lines and
columns count from one, and columns count bytes, in 32-bit words. A `LineIndex` knows where the
lines of a text start.
-/

namespace StackEffect

/-- The bytes from `start` up to, and without, `stop`. -/
structure Span where
  start : Nat
  stop : Nat
deriving DecidableEq, Repr

structure Location where
  file : String
  line : UInt32
  col : UInt32
  span : Span
deriving DecidableEq, Repr

namespace Location

def text (l : Location) : String :=
  s!"{l.file}:{l.line}:{l.col}"

end Location

/-- The offsets at which the lines of a text start, in increasing order. There is always a first
line. -/
structure LineIndex where
  file : String
  starts : List Nat
  first : starts[0]? = some 0
deriving DecidableEq, Repr

namespace LineIndex

def startsFrom : Nat → List Char → List Nat
  | _, [] => []
  | pos, c :: cs =>
    if c = '\n' then (pos + 1) :: startsFrom (pos + 1) cs else startsFrom (pos + c.utf8Size) cs

def ofSource (file source : String) : LineIndex :=
  ⟨file, 0 :: startsFrom 0 source.toList, rfl⟩

end LineIndex

end StackEffect
