import StackEffect.Checked
import StackEffect.Text.Quoted

/-! # Listings

A listing shows a checked program with one line for each operation, string literal and contract.
What an operation refers to by number is named behind it.
-/

namespace StackEffect

def padLeft (width : Nat) (text : String) : String :=
  String.ofList (text.toList.leftpad width ' ')

def padRight (width : Nat) (text : String) : String :=
  String.ofList (text.toList.rightpad width ' ')

def closedLines (lines : List String) : String :=
  String.join (lines.map (· ++ "\n"))

namespace Program

variable (p : Program)

/-- The name of what an operation refers to. -/
def detail? (kind : OpKind) : Option String :=
  match kind with
  | .call id | .procBegin id | .procEnd id _ => (p.symbols.procs[id]?).map (·.name)
  | .loadVar ref _ | .storeVar ref _ | .varAddr ref _ => (p.symbols.var? ref).map (·.name)
  | .member _ name _ => some name
  | .pushStr id => (p.strings.text? id).map quoted
  | _ => none

def describe (kind : OpKind) : String :=
  match p.detail? kind with
  | some detail => s!"{kind.text} ; {detail}"
  | none => kind.text

def opLine (index : Nat) (op : Op) : String :=
  s!"{padLeft 4 (toString index)}  {padRight 20 op.loc.text} {p.describe op.kind}"

def stringLine (id : Nat) (text : String) : String :=
  s!"str {id}  {quoted text} ({text.utf8ByteSize} bytes)"

def opLines : List String :=
  (p.ops.zipIdx.map fun (op, i) => p.opLine i op) ++
    p.strings.texts.zipIdx.map fun (text, i) => stringLine i text

def listing : String :=
  closedLines p.opLines

end Program

namespace Checked

def contractLines (c : Checked) : List String :=
  c.contracts.map fun (opener, contract) =>
    let what := (c.program.ops[opener]?).elim "?" fun op => c.program.describe op.kind
    s!"{padLeft 4 (toString opener)}  ins={contract.ins} outs={contract.outs}  {what}"

def contractListing (c : Checked) : String :=
  closedLines c.contractLines

end Checked

end StackEffect
