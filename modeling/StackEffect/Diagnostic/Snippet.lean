import StackEffect.Diagnostic.Ink
import StackEffect.Diagnostic.Mark
import StackEffect.Listing
import StackEffect.Text.Width

/-! # Source snippets

A diagnostic for a reader at a terminal: its headline, then for each file the lines that its labels
mark. Under a line stand carets and dashes for the bytes marked, with the message of the last label
behind them and those of the others hanging below. This is one layout of a diagnostic; a session
takes any.
-/

namespace StackEffect.Snippet

def splitLines (text : List Char) : List (List Char) :=
  text.splitOn '\n'

def trimEnd (line : List Char) : List Char :=
  (line.reverse.dropWhile fun c => c == '\n' || c == '\r' || c == '\x00').reverse

def repeated (n : Nat) (text : String) : String :=
  String.join (List.replicate n text)

def overlap (a b c d : Nat) : Bool :=
  max a c < min b d

/-- The bytes of the blanks that a line starts with. -/
def indent (line : List Char) : Nat :=
  byteLength (line.takeWhile fun c => c.isWhitespace || c == '\x0b' || c == '\x0c')

def stronger : Option LabelStyle → LabelStyle → Option LabelStyle
  | some .primary, _ => some .primary
  | _, style => some style

def strongest (labels : List LineLabel) : Option LabelStyle :=
  labels.foldl (fun best l => stronger best l.style) none

/-! ## The frame -/

def gutter (pad : Nat) : String :=
  repeated (pad + 1) " "

def border : String :=
  Ink.framed "│"

def barSide (style : LabelStyle) (under : Option LabelStyle) : String :=
  under.elim " " (Ink.labelled · "─") ++ Ink.labelled style "│"

def barAt? (bars : List Bar) (column : Nat) : Option Bar :=
  bars.find? (·.column == column)

def barColumns (count : Nat) (bars : List Bar) : String :=
  String.join <| (List.range count).map fun column =>
    match barAt? bars column with
    | some ⟨_, style, .middle⟩ | some ⟨_, style, .bottom _ _⟩ => barSide style none
    | _ => "  "

/-- The columns of bars beside a line of source. A bar that starts before all text has its corner
there. -/
def sourceBars (count : Nat) (bars : List Bar) (line : List Char) : String :=
  String.join <| (List.range count).map fun column =>
    match barAt? bars column with
    | some ⟨_, style, .top start⟩ =>
      if start ≤ indent line then " " ++ Ink.labelled style "╭" else "  "
    | some ⟨_, style, _⟩ => barSide style none
    | none => "  "

/-! ## A line and what is under it -/

/-- Whether a character belongs to what the rejection is about. -/
def isPrimary (labels : List LineLabel) (bars : List Bar) (c : Column) : Bool :=
  let stop := c.offset + c.char.utf8Size
  labels.any (fun l => l.style == .primary && overlap l.start l.stop c.offset stop) ||
    bars.any fun b => b.style == .primary &&
      match b.part with
      | .top start => start ≤ c.offset
      | .middle => true
      | .bottom limit _ => stop ≤ limit

def sourceText (labels : List LineLabel) (bars : List Bar) (line : List Char) : String :=
  Ink.write <| (columns line).map fun c =>
    let shown := if c.char = '\t' then repeated c.width " " else String.singleton c.char
    (if isPrimary labels bars c then some .primary else none, shown)

/-- The carets and dashes under a line. Behind its last character there is room for one more. -/
def carets (labels : List LineLabel) (line : List Char) : String :=
  let stop := labels.foldl (fun n l => max n l.stop) 0
  let place : Column := ⟨'\x00', byteLength line, 1⟩
  Ink.write <| (columns line ++ [place]).map fun c =>
    let style := strongest <| labels.filter fun l =>
      overlap l.start l.stop c.offset (c.offset + c.char.utf8Size)
    let text := match style with
      | some .primary => "^"
      | some .secondary => "-"
      | none => if c.offset < stop then " " else ""
    (style, repeated c.width text)

/-- The position of the label whose message stands behind the carets: the last of those that reach
farthest, if it has a message and shares no byte with another. -/
def trailing? (labels : List LineLabel) : Option Nat :=
  let stop := labels.foldl (fun n l => max n l.stop) 0
  let numbered := labels.zipIdx
  match (numbered.filter fun (l, _) => l.stop == stop).getLast? with
  | none => none
  | some (l, i) =>
    let shared := numbered.any fun (m, j) => j != i && overlap l.start l.stop m.start m.stop
    if l.message = "" || shared then none else some i

def hanging (labels : List LineLabel) : List LineLabel :=
  let trailing := trailing? labels
  (labels.zipIdx.filter fun (l, i) => l.message != "" && trailing != some i).map (·.1)

def pointers (labels : List LineLabel) (cols : List Column) : String :=
  let farthest := labels.foldl (fun n l => max n l.start) 0
  String.join <| cols.map fun c =>
    let style := strongest <| (hanging labels).filter fun l =>
      c.offset ≤ l.start && l.start < c.offset + c.char.utf8Size
    let room := fun n => if c.offset ≤ farthest then repeated n " " else ""
    match style with
    | none => room c.width
    | some style => Ink.labelled style "│" ++ room (c.width - 1)

def labelLines (lead : String) (labels : List LineLabel) (line : List Char) : List String :=
  if labels.isEmpty then []
  else
    let message := ((trailing? labels).bind (labels[·]?)).elim "" fun l =>
      " " ++ Ink.labelled l.style l.message
    let below := (hanging labels).reverse
    let cols := columns line
    let stems := if below.isEmpty then [] else [lead ++ pointers labels cols]
    (lead ++ carets labels line ++ message) :: stems ++ below.map fun l =>
      lead ++ pointers labels (cols.takeWhile (·.offset < l.start)) ++
        Ink.labelled l.style l.message

def barCaret : LabelStyle → String
  | .primary => "^"
  | .secondary => "'"

def cornerColumns (count : Nat) (bars : List Bar) (self : Nat) : String :=
  let numbered := bars.zipIdx
  let drawn := (List.range count).foldl (fun (acc : String × Option LabelStyle) column =>
    let (text, under) := acc
    let line := under.elim "  " (Ink.labelled · "──")
    match numbered.find? fun (b, _) => b.column == column with
    | none => (text ++ line, under)
    | some (b, i) =>
      let side := text ++ barSide b.style under
      match b.part with
      | .middle => (side, under)
      | .top _ =>
        if i < self then (side, under)
        else if i = self then (text ++ " " ++ Ink.labelled b.style "╭", some b.style)
        else (text ++ line, under)
      | .bottom _ _ =>
        if self < i then (side, under)
        else if i = self then (text ++ " " ++ Ink.labelled b.style "╰", some b.style)
        else (text ++ line, under)) ("", none)
  drawn.1

/-- The lines under a line of source for the bars that start or end in it. -/
def cornerLines (pad count : Nat) (bars : List Bar) (line : List Char) : List String :=
  bars.zipIdx.filterMap fun (b, i) =>
    let lead := gutter pad ++ border ++ cornerColumns count bars i
    let foot := fun stop => repeated (totalWidth ((columns line).takeWhile (·.offset < stop))) "─"
    match b.part with
    | .middle => none
    | .top start =>
      if start ≤ indent line then none
      else some (lead ++ Ink.labelled b.style (foot (start + 1) ++ barCaret b.style))
    | .bottom stop message =>
      let message := if message = "" then "" else " " ++ message
      some (lead ++ Ink.labelled b.style (foot stop ++ barCaret b.style ++ message))

def sourceLines (pad count : Nat) (m : MarkedLine) (line : List Char) : List String :=
  let line := trimEnd line
  let number := Ink.framed (padLeft pad (toString (m.index + 1)))
  let lead := gutter pad ++ border ++ barColumns count m.bars ++ " "
  (number ++ " " ++ border ++ sourceBars count m.bars line ++ " " ++
      sourceText m.labels m.bars line) ::
    labelLines lead m.labels line ++ cornerLines pad count m.bars line

/-- The marked lines of a file from some line on. One line between two of them is shown too; more
than one are left out. -/
def bodyLines (pad : Nat) (marks : Marks) (lines : List (List Char)) :
    List MarkedLine → List String
  | [] => []
  | m :: rest =>
    let shown := sourceLines pad marks.bars m (lines.getD m.index [])
    let between := match rest with
      | [] => []
      | next :: _ =>
        if next.index = m.index + 1 then []
        else if next.index = m.index + 2 then
          let bars := ((marks.lines.find? (·.index == m.index + 1)).elim [] (·.bars))
          sourceLines pad marks.bars { index := m.index + 1, bars } (lines.getD (m.index + 1) [])
        else [gutter pad ++ Ink.framed "·" ++ barColumns marks.bars m.bars]
    shown ++ between ++ bodyLines pad marks lines rest

/-! ## The whole -/

def emptyLine (pad count : Nat) : String :=
  gutter pad ++ border ++ repeated count "  "

def locus (f : SourceFile) (starts : List Nat) (labels : List Label) : String :=
  let primary := labels.filter (·.style == .primary)
  let candidates := if primary.isEmpty then labels else primary
  let offsets := candidates.map (·.span.start)
  let offset := offsets.foldl min (offsets.headD 0)
  let (line, start) := Marks.lineOf starts offset
  let cols := columns ((splitLines f.text.toList).getD line [])
  let before := (cols.takeWhile (·.offset < offset - start)).length
  s!"{f.name}:{line + 1}:{before + 1}"

def fileLines (pad : Nat) (f : SourceFile) (labels : List Label) (closed : Bool) : List String :=
  let starts := (LineIndex.ofSource f.name f.text).starts
  let marks := Marks.ofLabels starts labels
  [gutter pad ++ Ink.framed "┌─" ++ " " ++ locus f starts labels, emptyLine pad marks.bars] ++
    bodyLines pad marks (splitLines f.text.toList) (marks.lines.filter (·.shown)) ++
    if closed then [emptyLine pad marks.bars] else []

def noteLines (pad : Nat) (note : String) : List String :=
  ((splitLines note.toList).zipIdx).map fun (line, i) =>
    gutter pad ++ (if i = 0 then Ink.framed "=" else " ") ++ " " ++ String.ofList line

def numberWidth (files : List SourceFile) (labels : List Label) : Nat :=
  labels.foldl (fun width l =>
    let starts := ((files[l.file]?).map fun f => (LineIndex.ofSource f.name f.text).starts).getD []
    let line := (Marks.lineOf starts l.span.stop).1
    max width (toString (line + 1)).length) 0

end Snippet

namespace Diagnostic

open Snippet

def headline (d : Diagnostic) : String :=
  Ink.boldRed ++ "error" ++ Ink.bold ++ ": " ++ d.message ++ Ink.plain

/-- The lines that show a diagnostic, the last of which is empty. -/
def snippets (files : List SourceFile) (d : Diagnostic) : List String :=
  let pad := numberWidth files d.labels
  let ids := (d.labels.map (·.file)).eraseDups
  let snippets := ids.zipIdx.flatMap fun (id, i) =>
    (files[id]?).elim [] fun f =>
      fileLines pad f (d.labels.filter (·.file == id)) (i + 1 < ids.length || !d.notes.isEmpty)
  d.headline :: snippets ++ d.notes.flatMap (noteLines pad) ++ [""]

end Diagnostic

end StackEffect
