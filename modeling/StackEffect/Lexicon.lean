/-! # Numbered texts

A lexicon lists distinct texts in the order in which they first appeared. A text's number is its
position in that list, so numbers never change once given.
-/

namespace StackEffect

/-- Distinct texts, numbered from zero by first appearance. -/
structure Lexicon where
  texts : List String := []
deriving DecidableEq, Repr

namespace Lexicon

def get? (t : Lexicon) (text : String) : Option Nat :=
  t.texts.idxOf? text

def text? (t : Lexicon) (id : Nat) : Option String :=
  t.texts[id]?

/-- Lists a text unless it is listed already, and gives its number. -/
def intern (t : Lexicon) (text : String) : Lexicon × Nat :=
  match t.get? text with
  | some id => (t, id)
  | none => (⟨t.texts ++ [text]⟩, t.texts.length)

def internAll (t : Lexicon) (texts : List String) : Lexicon :=
  texts.foldl (fun t text => (t.intern text).1) t

def ofList (texts : List String) : Lexicon :=
  internAll {} texts

end Lexicon

end StackEffect
