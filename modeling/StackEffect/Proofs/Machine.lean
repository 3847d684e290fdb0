import StackEffect.Proofs.Effect

/-! # A machine on types

The machine runs operations on the types of values alone. A plain operation has the outcome by which
the checker goes as well, `OpKind.outcome?`, but the machine follows a program where it leads: into
either branch of an `if`, into the procedures that it calls and back. It stops where an operation
finds too few values, values of the wrong types or a binding that is not there.
-/

namespace StackEffect

/-- One activation of a procedure: the index of the operation to come, and the types of what it has
bound, the latest first. -/
structure Activation where
  pc : Nat
  bound : List Ty
deriving DecidableEq, Repr

/-- A run under way. All activations share one stack, whose top comes first. The callers, the latest
first, go on where they stand once the activation under way returns. -/
structure Machine where
  stack : List Ty
  top : Activation
  callers : List Activation := []
deriving DecidableEq, Repr

namespace Machine

variable (sym : Symbols) (ops : List Op) (m : Machine)

def index? (kinds : List OpKind) : Option Nat :=
  ops.findIdx? (·.kind ∈ kinds)

def advance (stack bound : List Ty) : Machine :=
  { m with stack := stack, top := ⟨m.top.pc + 1, bound⟩ }

/-- Goes on behind another operation of the same procedure. -/
def jump (stack : List Ty) (target : Nat) : Machine :=
  { m with stack := stack, top := ⟨target + 1, m.top.bound⟩ }

def plain (kind : OpKind) : Option Machine :=
  let count := kind.operands sym
  if count ≤ m.stack.length then
    (kind.outcome? sym m.top.bound (m.stack.take count).reverse).map fun types =>
      m.advance (types.reverse ++ m.stack.drop count) m.top.bound
  else none

/-- A call finds its arguments on the stack, and begins the procedure with nothing bound. -/
def call (id : Nat) : Option Machine := do
  let p ← sym.procs[id]?
  let start ← index? ops [.procBegin id]
  if (m.stack.take p.ins.length).reverse = p.ins then
    some ⟨m.stack, ⟨start, []⟩, ⟨m.top.pc + 1, m.top.bound⟩ :: m.callers⟩
  else none

def leave : Option Machine :=
  match m.callers with
  | caller :: callers => some ⟨m.stack, caller, callers⟩
  | [] => none

/-- An `if` takes its condition. If its first branch is not taken, it goes on behind its `else`, or
behind its end if it has none. -/
def branch (taken : Bool) : Option Machine :=
  match m.stack with
  | .bool :: stack =>
    if taken then some (m.advance stack m.top.bound)
    else (index? ops [.ifElse m.top.pc, .ifEnd m.top.pc]).map (m.jump stack)
  | _ => none

def perform (taken : Bool) : OpKind → Option Machine
  | .call id => m.call sym ops id
  | .ifBegin => m.branch ops taken
  | .ifElse opener => (index? ops [.elseEnd opener]).map (m.jump m.stack)
  | .ifEnd _ | .elseEnd _ | .procBegin _ => some (m.advance m.stack m.top.bound)
  | .bind count =>
    if count ≤ m.stack.length then
      some (m.advance (m.stack.drop count) (m.stack.take count ++ m.top.bound))
    else none
  | .unbind count =>
    if count ≤ m.top.bound.length then some (m.advance m.stack (m.top.bound.drop count)) else none
  | .procEnd _ _ => m.leave
  | kind => m.plain sym kind

/-- Performs the operation to come. There is no step if it cannot be performed, and none from the
end of the procedure that the run began with. -/
def step (taken : Bool) : Option Machine :=
  (ops[m.top.pc]?).bind fun op => m.perform sym ops taken op.kind

/-- The activation that the run began with is at the end of its procedure. -/
def Ends (id : Nat) : Prop :=
  m.callers = [] ∧ ∃ frame, (ops[m.top.pc]?).map (·.kind) = some (.procEnd id frame)

/-- The machines that a run can come to, whichever way it goes at each `if`. -/
inductive Reaches (start : Machine) : Machine → Prop
  | start : Reaches start start
  | step {m next : Machine} {taken : Bool} (h : Reaches start m)
      (hstep : m.step sym ops taken = some next) : Reaches start next

variable {sym ops m} {kind : OpKind} {taken : Bool} {id : Nat}

theorem step_of {op : Op} (hop : ops[m.top.pc]? = some op) :
    m.step sym ops taken = m.perform sym ops taken op.kind := by
  rw [step, hop, Option.bind_some]

theorem Ends.step_eq_none (h : m.Ends ops id) : m.step sym ops taken = none := by
  obtain ⟨hcallers, frame, hop⟩ := h
  obtain ⟨op, hop, hkind⟩ := Option.map_eq_some_iff.mp hop
  rw [step_of hop, hkind]
  simp [perform, leave, hcallers]

/-- Plain operations other than calls are performed by their outcome. -/
theorem perform_plain (hk : kind.isPlain) (hcall : ∀ id, kind ≠ .call id)
    {args rest types : List Ty} (hstack : m.stack = args.reverse ++ rest)
    (hlen : args.length = kind.operands sym)
    (hout : kind.outcome? sym m.top.bound args = some types) :
    m.perform sym ops taken kind = some (m.advance (types.reverse ++ rest) m.top.bound) := by
  have hperform : m.perform sym ops taken kind = m.plain sym kind := by
    cases kind with
    | call id => exact absurd rfl (hcall id)
    | ifBegin | ifElse | ifEnd | elseEnd | bind | unbind | procBegin | procEnd => cases hk
    | _ => rfl
  have htake : m.stack.take (kind.operands sym) = args.reverse := by
    rw [hstack, ← hlen, List.take_left' args.length_reverse]
  have hdrop : m.stack.drop (kind.operands sym) = rest := by
    rw [hstack, ← hlen, List.drop_left' args.length_reverse]
  have henough : kind.operands sym ≤ m.stack.length := by simp [hstack, ← hlen]
  simp [hperform, plain, htake, hdrop, henough, hout]

theorem exists_index? {kinds : List OpKind} (h : ∃ op ∈ ops, op.kind ∈ kinds) :
    ∃ t op, index? ops kinds = some t ∧ ops[t]? = some op ∧ op.kind ∈ kinds := by
  obtain ⟨op, hmem, hkind⟩ := h
  cases hfind : index? ops kinds with
  | none =>
    have hnone := List.findIdx?_eq_none_iff.mp hfind op hmem
    simp [hkind] at hnone
  | some t =>
    obtain ⟨hlt, hfound, _⟩ := List.findIdx?_eq_some_iff_getElem.mp hfind
    exact ⟨t, ops[t], rfl, List.getElem?_eq_getElem hlt, by simpa using hfound⟩

end Machine

end StackEffect
