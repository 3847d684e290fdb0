import StackEffect.Diagnostic.Snippet
import StackEffect.Session

/-! # The command

`check [-v] [--dump-tokens] [--dump-ops] [--dump-contracts] [--pretty] FILE` checks a source file.
It ends with status zero if the program is accepted.
-/

namespace StackEffect

/-- Reads the arguments of the command: options in any order and one file. -/
def Options.parse? : Options → Option String → List String → Option (Options × String)
  | o, file, [] => file.map fun f => (o, f)
  | o, file, arg :: args =>
    if arg = "-v" || arg = "--verbose" then parse? { o with verbose := true } file args
    else if arg = "--dump-tokens" then parse? { o with dumpTokens := true } file args
    else if arg = "--dump-ops" then parse? { o with dumpOps := true } file args
    else if arg = "--dump-contracts" then parse? { o with dumpContracts := true } file args
    else if arg = "--pretty" then parse? { o with pretty := true } file args
    else if arg.toList.head? = some '-' || file.isSome then none
    else parse? o (some arg) args

def readBytes (name : String) : IO (Option ByteArray) := do
  try
    return some (← IO.FS.readBinFile name)
  catch _ =>
    return none

end StackEffect

open StackEffect in
def main (args : List String) : IO UInt32 := do
  match Options.parse? {} none args with
  | none =>
    IO.eprintln "usage: check [-v] [--dump-tokens] [--dump-ops] [--dump-contracts] [--pretty] FILE"
    return 2
  | some (options, name) =>
    let transcript := Session.run Diagnostic.snippets options name (← readBytes name)
    IO.eprint transcript.text
    return transcript.status.toUInt32
