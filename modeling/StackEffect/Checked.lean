import StackEffect.Contract.Check
import StackEffect.Program

/-! # Checked programs

The whole way from a source text to a program whose stack effects are known.
-/

namespace StackEffect

/-- A program with all member offsets filled in, and the contracts of its blocks. -/
structure Checked where
  program : Program
  contracts : ContractTable
deriving DecidableEq, Repr

namespace Checked

def ofProgram (p : Program) : Except Fault Checked :=
  let (ops, contracts) := checkOps p.symbols p.ops
  contracts.map fun contracts => ⟨{ p with ops := ops }, contracts⟩

def ofSource (file source : String) : Except Fault Checked := do
  ofProgram (← Program.ofSource file source)

end Checked

end StackEffect
