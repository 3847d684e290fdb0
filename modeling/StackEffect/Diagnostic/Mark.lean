import StackEffect.Diagnostic.Label

/-! # Marks on lines

The labels of a file are sorted onto its lines. A label within one line marks some of its bytes; a
label over several lines is a bar beside them, from a corner in its first line to one in its last.
-/

namespace StackEffect

structure LineLabel where
  style : LabelStyle
  start : Nat
  stop : Nat
  message : String
deriving DecidableEq, Repr

inductive BarPart
  | top (start : Nat)
  | middle
  | bottom (stop : Nat) (message : String)
deriving DecidableEq, Repr

structure Bar where
  column : Nat
  style : LabelStyle
  part : BarPart
deriving DecidableEq, Repr

/-- The marks on a line, which is counted from zero. A line between the ends of a long bar need not
be shown. -/
structure MarkedLine where
  index : Nat
  labels : List LineLabel := []
  bars : List Bar := []
  shown : Bool := false
deriving DecidableEq, Repr

namespace MarkedLine

/-- Adds a label and keeps labels ordered by the bytes they mark, a later one before its equals. -/
def insertLabel (l : LineLabel) : List LineLabel → List LineLabel
  | [] => [l]
  | m :: ms =>
    if m.start < l.start ∨ (m.start = l.start ∧ m.stop < l.stop) then m :: insertLabel l ms
    else l :: m :: ms

def update (index : Nat) (f : MarkedLine → MarkedLine) : List MarkedLine → List MarkedLine
  | [] => [f { index }]
  | l :: ls =>
    if index < l.index then f { index } :: l :: ls
    else if index = l.index then f l :: ls
    else l :: update index f ls

def addBar (index : Nat) (bar : Bar) (shown : Bool) (lines : List MarkedLine) : List MarkedLine :=
  update index (fun l => { l with bars := l.bars ++ [bar], shown := l.shown || shown }) lines

end MarkedLine

def barHead : Nat := 3

def barTail : Nat := 1

structure Marks where
  lines : List MarkedLine := []
  bars : Nat := 0
deriving DecidableEq, Repr

namespace Marks

/-- The line of an offset, counted from zero, and the offset of its start. -/
def lineOf (starts : List Nat) (offset : Nat) : Nat × Nat :=
  let before := starts.filter (· ≤ offset)
  (before.length - 1, before.getLastD 0)

/-- Adds a label, given the offsets at which lines start. A label that marks nothing still takes one
place. -/
def add (starts : List Nat) (m : Marks) (l : Label) : Marks :=
  let (first, start) := lineOf starts l.span.start
  let (last, lastStart) := lineOf starts l.span.stop
  if first = last then
    let left := l.span.start - start
    let label : LineLabel := ⟨l.style, left, max (l.span.stop - start) (left + 1), l.message⟩
    { m with lines := MarkedLine.update first (fun line =>
        { line with labels := MarkedLine.insertLabel label line.labels, shown := true }) m.lines }
  else
    let inside := (List.range (last - first - 1)).map (first + 1 + ·)
    let lines := MarkedLine.addBar first ⟨m.bars, l.style, .top (l.span.start - start)⟩ true m.lines
    let lines := inside.foldl (fun lines i =>
      MarkedLine.addBar i ⟨m.bars, l.style, .middle⟩ (i - first ≤ barHead || last - i ≤ barTail)
        lines) lines
    let bottom : BarPart := .bottom (l.span.stop - lastStart) l.message
    ⟨MarkedLine.addBar last ⟨m.bars, l.style, bottom⟩ true lines, m.bars + 1⟩

def ofLabels (starts : List Nat) (labels : List Label) : Marks :=
  labels.foldl (add starts) {}

end Marks

end StackEffect
