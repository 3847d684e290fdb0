import StackEffect.Contract
import StackEffect.Contract.Stack
import StackEffect.Diagnostic.Cause
import StackEffect.Symbols

/-! # Checking stack effects

One pass over the operations follows the types on the stack. Every operation has to find the
operands it needs, both branches of an `if` have to leave the same types, and a procedure has to
leave the types it declares. On the way the offsets of struct members are filled in, and the
contract of every block is read off the counters of the stack.
-/

namespace StackEffect

/-- The end of the first branch of an `if` that has an `else`. -/
structure BranchEnd where
  types : List Ty
  height : Int
  low : Int
  loc : Location
deriving DecidableEq, Repr

/-- An open `if`: the stack just behind its condition, the bindings there, and the end of its first
branch once that has been reached. -/
structure Branch where
  opener : Nat
  loc : Location
  entry : TypeStack
  bindings : List Frame
  thenEnd : Option BranchEnd := none
deriving DecidableEq, Repr

/-- What is known before an operation. Bindings and open branches are listed with the latest first.
-/
structure CheckState where
  stack : TypeStack := {}
  bindings : List Frame := []
  current : Option Nat := none
  branches : List Branch := []
  contracts : ContractTable := []
deriving DecidableEq, Repr

namespace Symbols

def procAt (s : Symbols) (id : Nat) (loc : Location) : Except Fault Procedure :=
  match s.procs[id]? with
  | some p => .ok p
  | none => .error ((Cause.danglingProcedure id).fault loc)

def expectType (s : Symbols) (f : Frame) (expected : Ty) (what : String) (loc : Location) :
    Except Fault Unit :=
  if f.ty = expected then .ok ()
  else
    .error (((Cause.operandType what (s.typeName expected) (s.typeName f.ty)).fault loc).note
      .valuePushed f.loc)

/-- Checks operands against what a primitive asks of them, both bottom first. Gives the first
operand of those that have to share a type, if there is any; the first argument is the one met
before. -/
def checkOperands (s : Symbols) (what : String) (loc : Location) :
    Option Frame → List (Operand × Frame) → Except Fault (Option Frame)
  | shared, [] => .ok shared
  | shared, (.any, _) :: rest => checkOperands s what loc shared rest
  | shared, (.exact ty, f) :: rest => do
    s.expectType f ty what loc
    checkOperands s what loc shared rest
  | none, (.same, f) :: rest => checkOperands s what loc (some f) rest
  | some first, (.same, f) :: rest =>
    if first.ty = f.ty then checkOperands s what loc (some first) rest
    else
      let a := s.typeName first.ty
      let b := s.typeName f.ty
      .error ((((Cause.operandsDiffer what a b).fault loc).note (.typePushed a) first.loc).note
        (.typePushed b) f.loc)

/-- Checks the arguments of a call from the last one down. Both lists have the last argument first.
-/
def checkArguments (s : Symbols) (p : Procedure) (loc : Location) :
    List Ty → List Frame → Except Fault Unit
  | want :: wanted, f :: frames =>
    if f.ty = want then checkArguments s p loc wanted frames
    else
      let cause := Cause.argumentType (wanted.length + 1) p.name (s.typeName want) (s.typeName f.ty)
      .error (((cause.fault loc).note .valuePushed f.loc).note (.declaredHere p.name) p.loc)
  | _, _ => .ok ()

end Symbols

namespace MemberAccess

def word (access : MemberAccess) (name : String) : String :=
  match access with
  | load => s!"`.{name}`"
  | addr => s!"`.*{name}`"

def result (access : MemberAccess) (ty : Ty) : Ty :=
  match access with
  | load => ty
  | addr => .ptr

end MemberAccess

/-- The value that a primitive leaves, given its operands and the one whose type others share. -/
def Outcome.frame? (inputs : List Frame) (shared : Option Frame) (loc : Location) :
    Outcome → Option Frame
  | .exact ty => some ⟨ty, loc⟩
  | .same => some ⟨shared.elim .any (·.ty), loc⟩
  | .input i => inputs[i]?

namespace CheckState

variable (sym : Symbols) (st : CheckState)

def pop (count : Nat) (what : String) (loc : Location) :
    Except Fault (List Frame × CheckState) :=
  match st.stack.popMany? count with
  | some (frames, stack) => .ok (frames, { st with stack := stack })
  | none => .error ((Cause.tooFewValues what count st.stack.frames.length).fault loc)

def popOne (what : String) (loc : Location) : Except Fault (Frame × CheckState) :=
  match st.stack.pop? with
  | some (f, stack) => .ok (f, { st with stack := stack })
  | none => .error ((Cause.tooFewValues what 1 0).fault loc)

def push (types : List Ty) (loc : Location) : CheckState :=
  { st with stack := st.stack.pushAll (types.map (⟨·, loc⟩)) }

def intrinsic (i : Intrinsic) (loc : Location) : Except Fault CheckState := do
  let what := s!"`{i.name}`"
  let (inputs, st) ← st.pop i.signature.ins.length what loc
  let shared ← sym.checkOperands what loc none (i.signature.ins.zip inputs)
  let results := i.signature.outs.filterMap (·.frame? inputs shared loc)
  return { st with stack := st.stack.pushAll results }

def cast (ty : Ty) (loc : Location) : Except Fault CheckState := do
  let (_, st) ← st.popOne s!"cast to {sym.typeName ty}" loc
  return st.push [ty] loc

/-- A call takes the declared inputs and leaves the declared outputs. -/
def call (id : Nat) (loc : Location) : Except Fault CheckState := do
  let p ← sym.procAt id loc
  let found := st.stack.frames.length
  if found < p.ins.length then
    .error (((Cause.tooFewArguments p.name p.ins.length found).fault loc).note
      (.declaredHere p.name) p.loc)
  else do
    sym.checkArguments p loc p.ins.reverse st.stack.frames
    let (_, st) ← st.pop p.ins.length s!"call to `{p.name}`" loc
    return st.push p.outs loc

def pushBinding (depth : Nat) (loc : Location) : Except Fault CheckState :=
  match st.bindings[depth]? with
  | some f => .ok (st.push [f.ty] loc)
  | none => .error ((Cause.bindingNotInScope depth).fault loc)

def storeVar (ref : Ref) (ty : Ty) (loc : Location) : Except Fault CheckState :=
  match sym.var? ref with
  | none => .error ((Cause.danglingVariable ref.text).fault loc)
  | some v => do
    let what := s!"store to `{v.name}`"
    let (f, st) ← st.popOne what loc
    sym.expectType f ty what loc
    return st

def member (access : MemberAccess) (name : String) (loc : Location) :
    Except Fault (Nat × CheckState) := do
  let what := access.word name
  let (receiver, st) ← st.popOne what loc
  match receiver.ty with
  | .struct id =>
    match sym.structs[id]? with
    | none => .error ((Cause.danglingStruct id).fault loc)
    | some d =>
      match d.member? name with
      | none => .error (((Cause.noMember d.name name).fault loc).note (.declaredHere d.name) d.loc)
      | some (i, m) => .ok (StructDef.offset i, st.push [access.result m.ty] loc)
  | other =>
    .error (((Cause.notStruct what (sym.typeName other)).fault loc).note .valuePushed receiver.loc)

/-- An `if` takes its condition and counts from there. -/
def openIf (index : Nat) (loc : Location) : Except Fault CheckState := do
  let (f, st) ← st.popOne "`if`" loc
  sym.expectType f .bool "`if` condition" loc
  let branch : Branch := ⟨index, loc, st.stack, st.bindings, none⟩
  return { st with stack := st.stack.resetCounters, branches := branch :: st.branches }

/-- An `else` keeps the end of the first branch and goes back to the state at the `if`. -/
def enterElse (opener : Nat) (loc : Location) : Except Fault CheckState :=
  match st.branches with
  | [] => .error (Cause.elseWithoutIf.fault loc)
  | b :: branches =>
    if b.opener ≠ opener ∨ b.thenEnd.isSome then
      .error ((Cause.elseMismatch.fault loc).note .innermostIf b.loc)
    else
      let thenEnd : BranchEnd := ⟨st.stack.types, st.stack.height, st.stack.low, loc⟩
      .ok { st with
        stack := b.entry.resetCounters
        bindings := b.bindings
        branches := { b with thenEnd := some thenEnd } :: branches }

/-- Takes the innermost branch, which has to be the one that an `end` names. -/
def popBranch (opener : Nat) (loc : Location) : Except Fault (Branch × CheckState) :=
  match st.branches with
  | [] => .error (Cause.endWithoutIf.fault loc)
  | b :: branches =>
    if b.opener = opener then .ok (b, { st with branches := branches })
    else .error ((Cause.endMismatch.fault loc).note .innermostIf b.loc)

/-- Records the contract of a block and counts the block as one step of what is around it. -/
def closeBranch (b : Branch) (ins outs : Nat) : CheckState :=
  { st with
    stack := (st.stack.restoreCounters b.entry).absorb ins outs
    contracts := ContractTable.insert b.opener ⟨ins, outs⟩ st.contracts }

/-- The end of an `if` without `else`, which must leave the types that it found. -/
def closeIf (opener : Nat) (loc : Location) : Except Fault CheckState := do
  let (b, st) ← st.popBranch opener loc
  let entry := b.entry.types
  let exit := st.stack.types
  let ins := (-st.stack.low).toNat
  if b.thenEnd.isSome then
    .error ((Cause.closedAsBare.fault loc).note (.openedHere "`if`") b.loc)
  else if entry = exit then .ok (st.closeBranch b ins (ins + st.stack.height).toNat)
  else
    .error (((Cause.bareIfEffect (sym.shape entry) (sym.shape exit)).fault loc).note
      (.openedHere "`if`") b.loc)

/-- The end of an `if` with `else`, both branches of which must leave the same types. -/
def closeElse (opener : Nat) (loc : Location) : Except Fault CheckState := do
  let (b, st) ← st.popBranch opener loc
  match b.thenEnd with
  | none => .error ((Cause.closedWithElse.fault loc).note (.openedHere "`if`") b.loc)
  | some thenEnd =>
    let types := st.stack.types
    let dip := min thenEnd.low st.stack.low
    if thenEnd.types = types then
      .ok (st.closeBranch b (-dip).toNat (max thenEnd.height st.stack.height - dip).toNat)
    else
      .error ((((Cause.branchEffects (sym.shape thenEnd.types) (sym.shape types)).fault loc).note
        .branchEnds thenEnd.loc).note (.openedHere "`if`") b.loc)

def bind (count : Nat) (loc : Location) : Except Fault CheckState := do
  let (frames, st) ← st.pop count "`let`" loc
  return { st with bindings := frames.reverse ++ st.bindings }

/-- The end of a `let` takes back what was bound last. -/
def unbind (count : Nat) (loc : Location) : Except Fault CheckState :=
  if st.bindings.length < count then
    .error ((Cause.bindingScope count st.bindings.length).fault loc)
  else .ok { st with bindings := st.bindings.drop count }

/-- The start of a procedure body, which finds the declared inputs on the stack. -/
def beginProc (index id : Nat) (loc : Location) : Except Fault CheckState := do
  let p ← sym.procAt id loc
  match st.current with
  | some outerId =>
    let outer ← sym.procAt outerId loc
    .error (((Cause.procedureInside p.name outer.name).fault loc).note .enclosingProcedure
      outer.loc)
  | none =>
    .ok { st with
      stack := .seed p.ins p.loc
      bindings := []
      current := some id
      contracts := ContractTable.insert index ⟨p.ins.length, p.outs.length⟩ st.contracts }

/-- The end of a procedure body, which must leave the declared outputs and nothing else. -/
def endProc (id : Nat) (loc : Location) : Except Fault CheckState := do
  let p ← sym.procAt id loc
  let exit := st.stack.types
  match st.branches with
  | b :: _ => .error (((Cause.endsInsideIf p.name).fault loc).note (.openedHere "`if`") b.loc)
  | [] =>
    if exit = p.outs then .ok { st with stack := {}, bindings := [], current := none }
    else
      .error (((Cause.procedureEffect p.name (sym.shape exit) (sym.shape p.outs)).fault loc).note
        (.declaredHere p.name) p.loc)

/-- What an operation does, given its index and its place, if it may stand where it does. -/
def effect (index : Nat) (kind : OpKind) (loc : Location) : Except Fault CheckState :=
  match kind with
  | .pushInt _ => .ok (st.push [.int] loc)
  | .pushBool _ => .ok (st.push [.bool] loc)
  | .pushPtr _ | .pushMem _ => .ok (st.push [.ptr] loc)
  | .pushStr _ => .ok (st.push [.int, .ptr] loc)
  | .intrinsic i => st.intrinsic sym i loc
  | .cast ty => st.cast sym ty loc
  | .call id => st.call sym id loc
  | .pushBinding depth => st.pushBinding depth loc
  | .loadVar _ ty | .varAddr _ ty => .ok (st.push [ty] loc)
  | .storeVar ref ty => st.storeVar sym ref ty loc
  | .member access name _ => (st.member sym access name loc).map (·.2)
  | .ifBegin => st.openIf sym index loc
  | .ifElse opener => st.enterElse opener loc
  | .ifEnd opener => st.closeIf sym opener loc
  | .elseEnd opener => st.closeElse sym opener loc
  | .bind count => st.bind count loc
  | .unbind count => st.unbind count loc
  | .procBegin id => st.beginProc sym index id loc
  | .procEnd id _ => st.endProc sym id loc

def standsOutside : OpKind → Bool
  | .procBegin _ => true
  | _ => false

/-- Checks an operation, given its index, and writes the offset that an access to a member finds
into it. -/
def checkOp (index : Nat) (op : Op) : Except Fault CheckState × Op :=
  if st.current = none ∧ standsOutside op.kind = false then
    (.error ((Cause.strayOperation op.kind.text).fault op.loc), op)
  else
    match op.kind with
    | .member access name _ =>
      match st.member sym access name op.loc with
      | .error f => (.error f, op)
      | .ok (offset, next) => (.ok next, { op with kind := .member access name (some offset) })
    | kind => (st.effect sym index kind op.loc, op)

/-- Checks operations, the first of which has the given index. Gives all of them back, those behind
a fault as they were. -/
def run (sym : Symbols) : CheckState → Nat → List Op → List Op × Except Fault CheckState
  | st, _, [] => ([], .ok st)
  | st, index, op :: ops =>
    match st.checkOp sym index op with
    | (.error f, op) => (op :: ops, .error f)
    | (.ok next, op) =>
      let (ops, result) := run sym next (index + 1) ops
      (op :: ops, result)

/-- The contracts found, once the last procedure is closed. -/
def finish : Except Fault ContractTable :=
  match st.current.bind (sym.procs[·]?) with
  | some p => .error ((Cause.neverClosed p.name).fault p.loc)
  | none => .ok st.contracts

end CheckState

/-- Checks a list of operations against the tables it refers to. Gives the operations with the
offsets that were found, and the contracts of all blocks. -/
def checkOps (sym : Symbols) (ops : List Op) : List Op × Except Fault ContractTable :=
  let (ops, result) := CheckState.run sym {} 0 ops
  (ops, result.bind (·.finish sym))

end StackEffect
