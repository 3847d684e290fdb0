import StackEffect.Diagnostic.Label
import StackEffect.Listing

/-! # Sessions

What the command does with one file: the text that it writes and the status with which it ends. How
a diagnostic is laid out for a reader is a parameter.
-/

namespace StackEffect

structure Options where
  verbose : Bool := false
  dumpTokens : Bool := false
  dumpOps : Bool := false
  dumpContracts : Bool := false
  pretty : Bool := false
deriving DecidableEq, Repr

/-- The lines in which a diagnostic is shown, given the files that it marks. -/
abbrev Diagnostic.Layout := List SourceFile → Diagnostic → List String

structure Transcript where
  status : Nat
  lines : List String
deriving DecidableEq, Repr

namespace Options

def say (o : Options) (lines : List String) : List String :=
  if o.verbose then lines else []

def dump (wanted : Bool) (title : String) (lines : List String) : List String :=
  if wanted then [s!"=== {title} ==="] ++ lines ++ [s!"=== End {title} ===", ""] else []

end Options

namespace Session

def tokenLine (t : Token) : String :=
  s!"{t.loc.text}: {t.kind.describe}"

def dumps (o : Options) (c : Checked) : List String :=
  Options.dump o.dumpOps "Operations" c.program.opLines ++
    Options.dump o.dumpContracts "Block Contracts" c.contractLines

def check (o : Options) (f : SourceFile) : List String × Except Fault Checked :=
  let lexing := o.say [s!"Lexing {f.name}..."]
  match TokenStream.ofSource f.name f.text with
  | .error fault => (lexing, .error fault)
  | .ok tokens =>
    let resolving := lexing ++ Options.dump o.dumpTokens "Tokens" (tokens.tokens.map tokenLine) ++
      o.say ["Resolving words..."]
    match Program.ofTokens tokens with
    | .error fault => (resolving, .error fault)
    | .ok program =>
      let checking := resolving ++ o.say ["Checking stack effects..."]
      match Checked.ofProgram program with
      | .error fault => (checking, .error fault)
      | .ok checked => (checking ++ dumps o checked, .ok checked)

def complaint (layout : Diagnostic.Layout) (o : Options) (f : SourceFile) (r : Report) :
    List String :=
  if o.pretty then layout [f] (.ofReport [f] r) else [r.render]

def summary (c : Checked) : String :=
  let procs := c.program.symbols.procs.length
  let ops := c.program.ops.length
  s!"Checked {procs} procedures, {ops} operations, {c.contracts.length} block contracts"

def run (layout : Diagnostic.Layout) (o : Options) (name : String) (bytes : Option ByteArray) :
    Transcript :=
  match SourceFile.read name bytes with
  | .error r => ⟨1, [s!"error: cannot read {name}: {r.message}"]⟩
  | .ok f =>
    let (told, result) := check o f
    let told := o.say [s!"Checking {name}"] ++ told
    match result with
    | .error fault => ⟨1, told ++ complaint layout o f fault.report⟩
    | .ok checked => ⟨0, told ++ o.say [summary checked]⟩

end Session

namespace Transcript

def text (t : Transcript) : String :=
  closedLines t.lines

end Transcript

end StackEffect
