import StackEffect.Token.Lexeme
import StackEffect.Token.Spelling
import StackEffect.Diagnostic.Cause
import StackEffect.Location.Search

/-! # The tokens of a source text

Every lexeme of a text is read as a token at its place. The first lexeme that spells none rejects
the text.
-/

namespace StackEffect.TokenStream

def token (index : LineIndex) (l : Lexeme) : Except Fault Token :=
  let loc := index.locate ⟨l.start, l.stop⟩
  match Spelling.kind? l.text with
  | some kind => .ok ⟨kind, loc⟩
  | none => .error ((Cause.unexpectedInput (String.ofList l.text)).fault loc)

def ofSource (file source : String) : Except Fault TokenStream := do
  let index := LineIndex.ofSource file source
  let size := byteLength source.toList
  let tokens ← (lexemes source.toList).mapM (token index)
  return ⟨tokens, index.locate ⟨size, size⟩⟩

end StackEffect.TokenStream
