import StackEffect.Op
import StackEffect.Diagnostic.Cause

/-! # Code under construction

Operations are emitted one behind the other while the blocks that are still open are kept on a
stack. An `else` goes on with the innermost block, which has to be an `if`; an `end` closes the
innermost block, whatever it is.
-/

namespace StackEffect

inductive BlockKind
  | ifBlock
  | elseBlock
  | procBlock (proc : Nat)
  /-- A `let` that binds this many names. -/
  | letBlock (count : Nat)
deriving DecidableEq, Repr

namespace BlockKind

def describe : BlockKind → String
  | ifBlock => "`if`"
  | elseBlock => "`else`"
  | procBlock _ => "procedure"
  | letBlock _ => "`let`"

end BlockKind

/-- An open block. The opener of an `else` block is the `if` it belongs to. -/
structure Block where
  kind : BlockKind
  opener : Nat
  loc : Location
deriving DecidableEq, Repr

namespace Block

def fault (b : Block) (cause : Cause) (loc : Location) : Fault :=
  (cause.fault loc).note (.openedHere b.kind.describe) b.loc

end Block

/-- The operations emitted so far and the open blocks, innermost first. -/
structure Code where
  ops : List Op := []
  blocks : List Block := []
deriving DecidableEq, Repr

namespace Code

def emit (c : Code) (kind : OpKind) (loc : Location) : Code :=
  { c with ops := c.ops ++ [⟨kind, loc⟩] }

def emitAll (c : Code) (kinds : List OpKind) (loc : Location) : Code :=
  { c with ops := c.ops ++ kinds.map (⟨·, loc⟩) }

def openBlock (c : Code) (block : BlockKind) (kind : OpKind) (loc : Location) : Code :=
  { c.emit kind loc with blocks := ⟨block, c.ops.length, loc⟩ :: c.blocks }

/-- An `else` uses up the innermost block, which has to be an `if`, and goes on with its `else`
block. -/
def tryElse (c : Code) (loc : Location) : Except Fault Unit × Code :=
  match c.blocks with
  | [] => (.error (Cause.elseWithoutIf.fault loc), c)
  | b :: blocks =>
    let c := { c with blocks := blocks }
    if b.kind = .ifBlock then
      (.ok (), { c.emit (.ifElse b.opener) loc with
        blocks := ⟨.elseBlock, b.opener, loc⟩ :: blocks })
    else (.error (b.fault (.elseCloses b.kind.describe) loc), c)

def openElse (c : Code) (loc : Location) : Except Fault Code :=
  match c.tryElse loc with
  | (.ok _, c) => .ok c
  | (.error f, _) => .error f

theorem openElse_eq (c : Code) (loc : Location) :
    c.openElse loc =
      match c.blocks with
      | [] => .error (Cause.elseWithoutIf.fault loc)
      | b :: blocks =>
        if b.kind = .ifBlock then
          .ok ⟨c.ops ++ [⟨.ifElse b.opener, loc⟩], ⟨.elseBlock, b.opener, loc⟩ :: blocks⟩
        else .error (b.fault (.elseCloses b.kind.describe) loc) := by
  unfold openElse tryElse
  cases c.blocks with
  | nil => rfl
  | cons b blocks =>
    by_cases hif : b.kind = .ifBlock
    · simp only [hif, if_true]
      rfl
    · simp only [hif, if_false]

/-- The operation that closes a block, where the block alone decides it. -/
def closer? (b : Block) : Option OpKind :=
  match b.kind with
  | .ifBlock => some (.ifEnd b.opener)
  | .elseBlock => some (.elseEnd b.opener)
  | .procBlock _ | .letBlock _ => none

/-- An `end` uses up the innermost block. The closing operation of a procedure or a `let` depends on
what was declared in it and is left to the caller. -/
def tryClose (c : Code) (loc : Location) : Except Fault Block × Code :=
  match c.blocks with
  | [] => (.error (Cause.endWithoutBlock.fault loc), c)
  | b :: blocks => (.ok b, { c with blocks := blocks }.emitAll (closer? b).toList loc)

def close (c : Code) (loc : Location) : Except Fault (Block × Code) :=
  match c.tryClose loc with
  | (.ok b, c) => .ok (b, c)
  | (.error f, _) => .error f

theorem close_eq (c : Code) (loc : Location) :
    c.close loc =
      match c.blocks with
      | [] => .error (Cause.endWithoutBlock.fault loc)
      | b :: blocks => .ok (b, { c with blocks := blocks }.emitAll (closer? b).toList loc) := by
  unfold close tryClose
  cases c.blocks <;> rfl

/-- The finished operations; a block that is still open is a fault at the end of the text. -/
def finish (c : Code) (eof : Location) : Except Fault (List Op) :=
  match c.blocks with
  | [] => .ok c.ops
  | b :: _ => .error (b.fault (.unclosedBlock b.kind.describe) eof)

end Code

end StackEffect
