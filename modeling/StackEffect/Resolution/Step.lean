import StackEffect.Resolution.Declaration
import StackEffect.Resolution.Meaning

/-! # Resolving tokens

One step reads a token and, for declarations and `let`, some of the tokens behind it. It gives the
new state and the number of further tokens it used.
-/

namespace StackEffect

/-- The names between `let` and its colon, behind those already read. -/
def letNames (loc eof : Location) : List String → List Token → Except Fault (List String)
  | _, [] => .error ((Cause.unterminatedLet.fault eof).note (.openedHere "`let`") loc)
  | names, t :: ts =>
    match t.kind with
    | .keyword .colon => .ok names
    | .word name => letNames loc eof (names ++ [name]) ts
    | _ => .error ((Cause.notBindingName t.kind.describe).fault t.loc)

namespace Resolution

variable (r : Resolution)

def literal (kind : OpKind) (loc : Location) : Except Fault Resolution := do
  let _ ← r.requireProcedure "a literal" loc
  return r.emitAll [kind] loc

def stringLiteral (text : String) (loc : Location) : Except Fault Resolution := do
  let _ ← r.requireProcedure "a string literal" loc
  let (strings, id) := r.strings.intern text
  return { r with strings := strings }.emitAll [.pushStr id] loc

def openIf (loc : Location) : Except Fault Resolution := do
  let _ ← r.requireProcedure "`if`" loc
  return { r with code := r.code.openBlock .ifBlock .ifBegin loc }

def openElse (loc : Location) : Except Fault Resolution := do
  return { r with code := ← r.code.openElse loc }

/-- Opens a `let` block, which binds the values on top of the stack; the last name stands for the
top. Uses the names and the colon. -/
def openLet (loc eof : Location) (rest : List Token) : Except Fault (Resolution × Nat) := do
  let (id, p) ← r.requireProcedure "`let`" loc
  let names ← letNames loc eof [] rest
  let r := r.setProcedure id { p with bindings := p.bindings ++ names }
  let code := r.code.openBlock (.letBlock names.length) (.bind names.length) loc
  if names.isEmpty then .error (Cause.emptyLet.fault loc)
  else .ok ({ r with code := code }, names.length + 1)

/-- Ends the scope of a `let`, which takes back the names bound last. -/
def closeLet (block : Block) (count : Nat) (loc : Location) : Except Fault Resolution := do
  let (id, p) ← r.requireProcedure "`end`" loc
  let bindings := p.bindings.take (p.bindings.length - count)
  if p.bindings.length < count then
    .error (((Cause.bindingScope count p.bindings.length).fault loc).note (.openedHere "`let`")
      block.loc)
  else .ok ((r.setProcedure id { p with bindings := bindings }).emitAll [.unbind count] loc)

def closeProc (id : Nat) (loc : Location) : Resolution :=
  let frame := (r.symbols.procs[id]?).elim 0 (·.memory.size)
  { r.emitAll [.procEnd id frame] loc with current := none }

def closeBlock (loc : Location) : Except Fault Resolution := do
  let (block, code) ← r.code.close loc
  let r := { r with code := code }
  match block.kind with
  | .ifBlock | .elseBlock => return r
  | .procBlock id => return r.closeProc id loc
  | .letBlock count => r.closeLet block count loc

def keyword (k : Keyword) (loc eof : Location) (rest : List Token) :
    Except Fault (Resolution × Nat) :=
  match k with
  | .ifKw => (r.openIf loc).map (·, 0)
  | .elseKw => (r.openElse loc).map (·, 0)
  | .endKw => (r.closeBlock loc).map (·, 0)
  | .letKw => r.openLet loc eof rest
  | _ => .error ((Cause.unexpectedKeyword k.text).fault loc)

def usedOutside (text : String) (loc : Location) (m : Meaning) : Fault :=
  let fault := (Cause.usedOutside text).fault loc
  match m.declared with
  | some declared => fault.note (.alreadyDeclared text) declared
  | none => fault

def word (text : String) (loc eof : Location) (rest : List Token) :
    Except Fault (Resolution × Nat) := do
  match ← r.lookup text loc with
  | none => r.declare eof text loc rest
  | some m =>
    if r.current = none then .error (usedOutside text loc m) else .ok (r.emitAll m.ops loc, 0)

def step (eof : Location) (t : Token) (rest : List Token) : Except Fault (Resolution × Nat) :=
  match t.kind with
  | .int n => (r.literal (.pushInt n) t.loc).map (·, 0)
  | .bool b => (r.literal (.pushBool b) t.loc).map (·, 0)
  | .ptr n => (r.literal (.pushPtr n) t.loc).map (·, 0)
  | .str s => (r.stringLiteral s t.loc).map (·, 0)
  | .keyword k => r.keyword k t.loc eof rest
  | .word text => r.word text t.loc eof rest

/-- Resolves tokens, the first `skip` of which have been used already. -/
def run (eof : Location) : Nat → Resolution → List Token → Except Fault Resolution
  | _, r, [] => .ok r
  | skip + 1, r, _ :: ts => run eof skip r ts
  | 0, r, t :: ts =>
    match r.step eof t ts with
    | .ok (r, used) => run eof used r ts
    | .error f => .error f

end Resolution

end StackEffect
