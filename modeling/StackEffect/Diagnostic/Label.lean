import StackEffect.Diagnostic.Report
import StackEffect.Symbols.Named

/-! # Labels in source files

A diagnostic marks spans of known files with messages. A place in a file that is not known cannot be
marked; if that is the place of the rejection itself, its plain form becomes a note.
-/

namespace StackEffect

structure SourceFile where
  name : String
  text : String
deriving DecidableEq, Repr

instance : Named SourceFile := ⟨SourceFile.name⟩

namespace SourceFile

def read (name : String) (bytes : Option ByteArray) : Except Report SourceFile :=
  match bytes with
  | none => .error (.unreadable "No such file or directory (os error 2)")
  | some bytes =>
    match String.fromUTF8? bytes with
    | none => .error (.unreadable "stream did not contain valid UTF-8")
    | some text => .ok ⟨name, text⟩

end SourceFile

/-- Whether a label marks the rejection or explains it. -/
inductive LabelStyle
  | primary
  | secondary
deriving DecidableEq, Repr

structure Label where
  style : LabelStyle
  file : Nat
  span : Span
  message : String
deriving DecidableEq, Repr

structure Diagnostic where
  message : String
  labels : List Label
  notes : List String
deriving DecidableEq, Repr

namespace Diagnostic

/-- The label for a place, if its file is known. A name given to several files is that of the last.
-/
def label? (files : List SourceFile) (style : LabelStyle) (loc : Location) (message : String) :
    Option Label :=
  (Named.last? loc.file files).map fun found => ⟨style, found.1, loc.span, message⟩

def ofReport (files : List SourceFile) (r : Report) : Diagnostic :=
  match r.loc with
  | none => ⟨r.category, [], [r.message]⟩
  | some loc =>
    let primary := label? files .primary loc r.message
    let secondary := r.notes.filterMap fun n => label? files .secondary n.loc n.message
    ⟨r.category, primary.toList ++ secondary, if primary.isSome then [] else [r.render]⟩

end Diagnostic

end StackEffect
