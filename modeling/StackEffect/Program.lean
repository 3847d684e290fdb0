import StackEffect.Resolution.Step
import StackEffect.Token.Source

/-! # Resolved programs

A program whose words all have a meaning: its operations and the tables they refer to.
-/

namespace StackEffect

structure Program where
  strings : Lexicon
  symbols : Symbols
  ops : List Op
deriving DecidableEq, Repr

namespace Program

def ofTokens (s : TokenStream) : Except Fault Program := do
  let r ← Resolution.run s.eof 0 {} s.tokens
  let ops ← r.code.finish s.eof
  return ⟨r.strings, r.symbols, ops⟩

def ofSource (file source : String) : Except Fault Program := do
  ofTokens (← TokenStream.ofSource file source)

end Program

end StackEffect
