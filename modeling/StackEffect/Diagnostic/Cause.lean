import StackEffect.Location

/-! # Causes of rejection

Each way in which a program can be wrong is a constructor of `Cause`. It holds what its message
names: texts of words, spellings of types and shapes of stacks. A `Remark` says what an earlier
place has to do with it.
-/

namespace StackEffect

inductive CauseKind
  | lexer | parse | unresolvedWord | structural | arity | typeMismatch | unknownMember | contract
  | evaluation | nesting | io
deriving DecidableEq, Repr

namespace CauseKind

def category : CauseKind → String
  | lexer => "Lexer error"
  | parse => "Syntax error"
  | unresolvedWord => "Unresolved word"
  | structural => "Block structure error"
  | arity => "Stack underflow"
  | typeMismatch => "Type error"
  | unknownMember => "Unknown struct member"
  | contract => "Stack contract mismatch"
  | evaluation => "Constant evaluation error"
  | nesting => "Nesting error"
  | io => "IO error"

end CauseKind

/-- What is wrong with a program. A field `what` names the thing at fault as its message does. -/
inductive Cause
  -- the text
  | unexpectedInput (text : String)
  -- words
  | undeclaredWord (word : String)
  | unknownCast (target : String)
  | usedOutside (word : String)
  | structAsWord (name : String)
  | unexpectedKeyword (text : String)
  | outsideProcedure (what : String)
  -- blocks
  | elseWithoutIf
  | elseCloses (block : String)
  | endWithoutBlock
  | unclosedBlock (block : String)
  | unterminatedLet
  | notBindingName (token : String)
  | emptyLet
  | bindingScope (count bound : Nat)
  -- declarations
  | unfinishedDeclaration (name : String)
  | unknownStruct (struct name : String)
  | notStructOrSize (name token : String)
  | extraColon (name : String)
  | nestedStruct (name : String)
  | unterminatedStruct (name : String)
  | notMemberName (name token : String)
  | duplicateMember (member name : String)
  | missingMemberType (name : String)
  | notMemberType (name token : String)
  | memberDefault (member found expected : String)
  | emptyStruct (name : String)
  | nestedProcedure (name outer : String)
  | regionSize (what : String) (size : Int)
  | outOfMemory (what : String) (size : Nat) (space : String)
  -- constant expressions
  | notConstant (token : String)
  | unclosedExpression
  | foldUnderflow (word : String)
  | foldOperands (word below top : String)
  | foldProduct (found : String)
  | foldCast (target : String)
  | notFoldable (word : String)
  | emptyInitializer (what : String)
  | initializerCount (what : String) (expected found : Nat)
  | initializerType (what expected found : String)
  -- stack effects
  | strayOperation (op : String)
  | tooFewValues (what : String) (expected found : Nat)
  | tooFewArguments (name : String) (expected found : Nat)
  | operandType (what expected found : String)
  | operandsDiffer (what first second : String)
  | argumentType (position : Nat) (name expected found : String)
  | notStruct (what found : String)
  | noMember (struct member : String)
  | bindingNotInScope (depth : Nat)
  | elseMismatch
  | endMismatch
  | endWithoutIf
  | closedAsBare
  | closedWithElse
  | bareIfEffect (entry exit : String)
  | branchEffects (first second : String)
  | procedureInside (name outer : String)
  | endsInsideIf (name : String)
  | neverClosed (name : String)
  | procedureEffect (name exit outs : String)
  | danglingProcedure (id : Nat)
  | danglingVariable (ref : String)
  | danglingStruct (id : Nat)
deriving DecidableEq, Repr

/-- What an earlier place has to do with a cause. -/
inductive Remark
  | declaredHere (name : String)
  | alreadyDeclared (name : String)
  | openedHere (block : String)
  | innermostIf
  | branchEnds
  | valuePushed
  | typePushed (ty : String)
  | insideProcedure (name : String)
  | enclosingProcedure
deriving DecidableEq, Repr

namespace Cause

def kind : Cause → CauseKind
  | unexpectedInput _ => .lexer
  | undeclaredWord _ | unknownCast _ => .unresolvedWord
  | structAsWord _ | unexpectedKeyword _ | unterminatedLet | notBindingName _ | emptyLet
  | unfinishedDeclaration _ | unknownStruct _ _ | notStructOrSize _ _ | extraColon _
  | unterminatedStruct _ | notMemberName _ _ | duplicateMember _ _ | missingMemberType _
  | notMemberType _ _ | emptyStruct _ => .parse
  | usedOutside _ | outsideProcedure _ | bindingScope _ _ | nestedStruct _ | nestedProcedure _ _
  | strayOperation _ | bindingNotInScope _ | procedureInside _ _ => .nesting
  | elseWithoutIf | elseCloses _ | endWithoutBlock | unclosedBlock _ | elseMismatch | endMismatch
  | endWithoutIf | closedAsBare | closedWithElse | endsInsideIf _ | neverClosed _
  | danglingProcedure _ | danglingVariable _ | danglingStruct _ => .structural
  | regionSize _ _ | outOfMemory _ _ _ | notConstant _ | unclosedExpression | foldUnderflow _
  | foldOperands _ _ _ | foldProduct _ | foldCast _ | notFoldable _ | emptyInitializer _
  | initializerCount _ _ _ | initializerType _ _ _ => .evaluation
  | tooFewValues _ _ _ | tooFewArguments _ _ _ => .arity
  | memberDefault _ _ _ | operandType _ _ _ | operandsDiffer _ _ _ | argumentType _ _ _ _
  | notStruct _ _ => .typeMismatch
  | noMember _ _ => .unknownMember
  | bareIfEffect _ _ | branchEffects _ _ | procedureEffect _ _ _ => .contract

def plural (n : Nat) : String :=
  if n = 1 then "" else "s"

def message : Cause → String
  | unexpectedInput text => s!"unexpected input `{text}`"
  | undeclaredWord word => s!"undeclared word `{word}`"
  | unknownCast target => s!"unknown cast target `{target}`"
  | usedOutside word => s!"`{word}` used outside of a procedure body"
  | structAsWord name => s!"struct type `{name}` cannot be used as a word"
  | unexpectedKeyword text => s!"unexpected keyword `{text}`"
  | outsideProcedure what => s!"{what} is only allowed inside a procedure body"
  | elseWithoutIf => "`else` without a matching `if`"
  | elseCloses block => s!"`else` cannot close a {block} block"
  | endWithoutBlock => "`end` without an open block"
  | unclosedBlock block => s!"unclosed {block} block at end of input"
  | unterminatedLet => "unterminated `let`: expected `:` after the bound names"
  | notBindingName token => s!"expected a binding name or `:`, found {token}"
  | emptyLet => "`let` must bind at least one name"
  | bindingScope count bound =>
    s!"binding scope closes {count} names but only {bound} are bound"
  | unfinishedDeclaration name => s!"unexpected end of input in the declaration of `{name}`"
  | unknownStruct struct name =>
    s!"unknown struct type `{struct}` in the declaration of `{name}`"
  | notStructOrSize name token =>
    s!"expected a struct type or a memory size after `{name} :`, found {token}"
  | extraColon name => s!"unexpected `:` in the declaration of `{name}`"
  | nestedStruct name => s!"struct `{name}` must be declared at top level"
  | unterminatedStruct name => s!"unterminated struct `{name}`: expected `end`"
  | notMemberName name token =>
    s!"expected a member name or `end` in struct `{name}`, found {token}"
  | duplicateMember member name => s!"duplicate member `{member}` in struct `{name}`"
  | missingMemberType name =>
    s!"unexpected end of input in struct `{name}`: expected a member type"
  | notMemberType name token =>
    s!"expected a member type in struct `{name}`, found {token}; " ++
      "members may only use scalar types or previously declared structs"
  | memberDefault member found expected =>
    s!"default for member `{member}` has type {found}, expected {expected}"
  | emptyStruct name => s!"struct `{name}` has no members"
  | nestedProcedure name outer =>
    s!"procedure `{name}` cannot be declared inside procedure `{outer}`"
  | regionSize what size => s!"{what} must have a positive size, found {size}"
  | outOfMemory what size space => s!"{what} of {size} bytes does not fit in the {space}"
  | notConstant token => s!"{token} cannot appear in a constant expression"
  | unclosedExpression => "constant expression is missing its closing `end`"
  | foldUnderflow word => s!"`{word}` needs more values than the constant expression provides"
  | foldOperands word below top => s!"`{word}` operands differ in type: {below} and {top}"
  | foldProduct found => s!"`*` expects int operands, found {found}"
  | foldCast target => s!"unknown cast target `{target}`"
  | notFoldable word => s!"`{word}` cannot be evaluated at compile time"
  | emptyInitializer what => s!"{what} needs a value, but its initializer is empty"
  | initializerCount what expected found =>
    s!"{what} expects {expected} value{plural expected}, but its initializer produced {found}"
  | initializerType what expected found =>
    s!"{what} expects {expected}, but its initializer has type {found}"
  | strayOperation op => s!"operation `{op}` outside of a procedure body"
  | tooFewValues what expected found =>
    s!"{what} needs {expected} value{plural expected} on the stack, found {found}"
  | tooFewArguments name expected found =>
    s!"call to `{name}` needs {expected} argument{plural expected}, found {found} on the stack"
  | operandType what expected found => s!"{what} expects {expected}, found {found}"
  | operandsDiffer what first second =>
    s!"{what} operands must share a type, found {first} and {second}"
  | argumentType position name expected found =>
    s!"argument {position} of `{name}` expects {expected}, found {found}"
  | notStruct what found => s!"{what} expects a struct reference, found {found}"
  | noMember struct member => s!"struct `{struct}` has no member `{member}`"
  | bindingNotInScope depth => s!"binding #{depth} is not in scope"
  | elseMismatch => "`else` does not match the innermost `if`"
  | endMismatch => "`end` does not match the innermost `if`"
  | endWithoutIf => "`end` without a matching `if`"
  | closedAsBare => "`if` with an `else` closed as a bare `if`"
  | closedWithElse => "bare `if` closed as an `if`/`else`"
  | bareIfEffect entry exit =>
    s!"`if` without `else` must not change the stack: entered with {entry}, ends with {exit}"
  | branchEffects first second =>
    s!"`if` and `else` branches leave different stacks: {first} and {second}"
  | procedureInside name outer => s!"procedure `{name}` begins inside procedure `{outer}`"
  | endsInsideIf name => s!"procedure `{name}` ends inside an open `if`"
  | neverClosed name => s!"procedure `{name}` is never closed"
  | procedureEffect name exit outs =>
    s!"procedure `{name}` ends with {exit} but declares outputs {outs}"
  | danglingProcedure id => s!"there is no procedure {id}"
  | danglingVariable ref => s!"there is no variable {ref}"
  | danglingStruct id => s!"there is no struct {id}"

end Cause

namespace Remark

def message : Remark → String
  | declaredHere name => s!"`{name}` declared here"
  | alreadyDeclared name => s!"`{name}` is already declared here"
  | openedHere block => s!"{block} opened here"
  | innermostIf => "innermost `if` opened here"
  | branchEnds => "`if` branch ends here"
  | valuePushed => "value pushed here"
  | typePushed ty => s!"{ty} pushed here"
  | insideProcedure name => s!"inside procedure `{name}`"
  | enclosingProcedure => "enclosing procedure declared here"

end Remark

structure Note where
  remark : Remark
  loc : Location
deriving DecidableEq, Repr

/-- A rejection: its cause, the place at fault, and the places that explain it. -/
structure Fault where
  cause : Cause
  loc : Location
  notes : List Note := []
deriving DecidableEq, Repr

def Cause.fault (cause : Cause) (loc : Location) : Fault :=
  ⟨cause, loc, []⟩

namespace Fault

def note (f : Fault) (remark : Remark) (loc : Location) : Fault :=
  { f with notes := f.notes ++ [⟨remark, loc⟩] }

end Fault

end StackEffect
