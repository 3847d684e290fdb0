import StackEffect.Diagnostic.Cause

/-! # Reports

A report is a rejection in words. Its plain form has one line for the rejection and one for each
note. A report about a file that cannot be read has no place.
-/

namespace StackEffect

structure ReportNote where
  message : String
  loc : Location
deriving DecidableEq, Repr

structure Report where
  kind : CauseKind
  message : String
  loc : Option Location
  notes : List ReportNote := []
deriving DecidableEq, Repr

def Fault.report (f : Fault) : Report :=
  ⟨f.cause.kind, f.cause.message, some f.loc, f.notes.map fun n => ⟨n.remark.message, n.loc⟩⟩

namespace Report

def unreadable (reason : String) : Report :=
  ⟨.io, reason, none, []⟩

def category (r : Report) : String :=
  r.kind.category

def headline (r : Report) : String :=
  match r.loc with
  | some loc => s!"{loc.text}: [ERROR] {r.message}"
  | none => s!"IO error: {r.message}"

def noteLine (n : ReportNote) : String :=
  s!"{n.loc.text}: [INFO] {n.message}"

def render (r : Report) : String :=
  "\n".intercalate (r.headline :: r.notes.map noteLine)

end Report

end StackEffect
