import StackEffect.Contract.Check
import StackEffect.Op.Code
import StackEffect.Token

/-! # Texts of one line

A message is made of fixed texts and of the texts that it quotes. The fixed ones have no line
breaks, nor have numbers and the spellings of keywords, types and operations. So a message is one
line if all that it quotes is. Words and names are quoted as such or inside of longer texts; the
properties that these take over from them are those that are `Quotable`.
-/

namespace StackEffect

def OneLine (text : String) : Prop :=
  '\n' ∉ text.toList

instance (text : String) : Decidable (OneLine text) :=
  inferInstanceAs (Decidable (¬ _))

/-- A text is looked through character by character. -/
theorem oneLine_ofList {cs : List Char} (h : '\n' ∉ cs) : OneLine (String.ofList cs) := by
  rwa [OneLine, String.toList_ofList]

@[simp] theorem oneLine_append {a b : String} : OneLine (a ++ b) ↔ OneLine a ∧ OneLine b := by
  simp [OneLine, not_or]

@[simp] theorem oneLine_toString {text : String} : OneLine (toString text) ↔ OneLine text :=
  Iff.rfl

@[simp] theorem oneLine_nat (n : Nat) : OneLine (toString n) := by
  change OneLine n.repr
  rw [Nat.repr_eq_ofList_toDigits]
  apply oneLine_ofList
  intro hmem
  have hdigit := Nat.isDigit_of_mem_toDigits (by decide) (by decide) hmem
  revert hdigit
  decide

@[simp] theorem oneLine_word (w : UInt32) : OneLine (toString w) :=
  oneLine_nat w.toNat

@[simp] theorem oneLine_int (n : Int) : OneLine (toString n) := by
  cases n with
  | ofNat m => exact oneLine_nat m
  | negSucc m => exact oneLine_append.mpr ⟨oneLine_ofList (by decide), oneLine_nat (m + 1)⟩

@[simp] theorem oneLine_int64 (n : Int64) : OneLine (toString n) :=
  oneLine_int n.toInt

@[simp] theorem oneLine_bool (b : Bool) : OneLine (toString b) := by
  cases b <;> exact oneLine_ofList (by decide)

/-! ## Spellings -/

theorem Keyword.oneLine_text (k : Keyword) : OneLine k.text := by
  cases k <;> exact oneLine_ofList (by decide)

theorem Intrinsic.oneLine_name (i : Intrinsic) : OneLine i.name := by
  cases i <;> exact oneLine_ofList (by decide)

theorem BlockKind.oneLine_describe (b : BlockKind) : OneLine b.describe := by
  cases b <;> exact oneLine_ofList (by decide)

theorem Ty.oneLine_text (ty : Ty) : OneLine ty.text := by
  cases ty with
  | struct id => exact oneLine_append.mpr ⟨oneLine_ofList (by decide), oneLine_nat id⟩
  | int | bool | ptr | any => exact oneLine_ofList (by decide)

theorem Ref.oneLine_text (ref : Ref) : OneLine ref.text := by
  have hscope : OneLine ref.scope.text := by
    cases ref.scope with
    | global => exact oneLine_ofList (by decide)
    | frame p =>
      simp only [Scope.text, oneLine_append, oneLine_toString, oneLine_nat, and_true]
      and_intros <;> exact oneLine_ofList (by decide)
  simp only [text, oneLine_append, oneLine_toString, oneLine_nat, hscope, and_true, true_and]
  exact oneLine_ofList (by decide)

theorem OpKind.oneLine_text (kind : OpKind) : OneLine kind.text := by
  cases kind with
  | intrinsic i => exact i.oneLine_name
  | pushBool b => cases b <;> exact oneLine_ofList (by decide)
  | ifBegin => exact oneLine_ofList (by decide)
  | member access name offset =>
    have haccess : OneLine access.text := by cases access <;> exact oneLine_ofList (by decide)
    cases offset with
    | none => exact oneLine_append.mpr ⟨haccess, oneLine_ofList (by decide)⟩
    | some offset =>
      delta text
      simp only [oneLine_append, oneLine_toString, haccess, oneLine_nat, and_true, true_and]
      exact oneLine_ofList (by decide)
  | pushInt | pushPtr | pushStr | cast | pushMem | call | pushBinding | loadVar | storeVar
  | varAddr | ifElse | ifEnd | elseEnd | bind | unbind | procBegin | procEnd =>
    delta text
    simp only [oneLine_append, oneLine_toString, oneLine_nat, oneLine_int64, Ty.oneLine_text,
      Ref.oneLine_text, and_true]
    and_intros <;> exact oneLine_ofList (by decide)

theorem oneLine_of_stripSigil? {sigil : Char} {text rest : String}
    (h : stripSigil? sigil text = some rest) (htext : OneLine text) : OneLine rest := by
  unfold stripSigil? at h
  split at h
  · rename_i c cs hcs
    split at h
    · cases h
      rw [OneLine, hcs] at htext
      exact oneLine_ofList fun hmem => htext (List.mem_cons_of_mem _ hmem)
    · cases h
  · cases h

/-! ## Texts made of others -/

/-- A property that passes from words and names on to all that messages quote. Texts of one line
have it, and it stays when texts are put together or the sigil of a word is taken off. -/
structure Quotable (Q : String → Prop) : Prop where
  line {text : String} : OneLine text → Q text
  append {a b : String} : Q a → Q b → Q (a ++ b)
  strip {sigil : Char} {text rest : String} : stripSigil? sigil text = some rest → Q text → Q rest

theorem quotable_oneLine : Quotable OneLine :=
  ⟨id, fun ha hb => oneLine_append.mpr ⟨ha, hb⟩, oneLine_of_stripSigil?⟩

theorem quotable_true : Quotable fun _ => True :=
  ⟨fun _ => trivial, fun _ _ => trivial, fun _ _ => trivial⟩

namespace Quotable

variable {Q : String → Prop} (hQ : Quotable Q)

include hQ

/-- A text with fixed texts around it. -/
theorem between {text front back : String} (htext : Q text) (hfront : OneLine front)
    (hback : OneLine back) : Q (front ++ text ++ back) :=
  hQ.append (hQ.append (hQ.line hfront) htext) (hQ.line hback)

theorem dotted (a b : String) (ha : Q a) (hb : Q b) : Q s!"{a}.{b}" :=
  hQ.append (hQ.append ha (hQ.line (by decide))) hb

theorem intercalate {sep : String} (hsep : Q sep) {texts : List String}
    (h : ∀ text ∈ texts, Q text) : Q (sep.intercalate texts) := by
  induction texts with
  | nil => exact hQ.line (oneLine_ofList (by decide))
  | cons a texts ih =>
    obtain ⟨ha, hrest⟩ := List.forall_mem_cons.mp h
    cases texts with
    | nil => exact ha
    | cons b texts =>
      have hcons : sep.intercalate (a :: b :: texts) =
          a ++ sep ++ sep.intercalate (b :: texts) := by
        ext1
        simp
      rw [hcons]
      exact hQ.append (hQ.append ha hsep) (ih hrest)

/-- The word that asks for a member. -/
theorem accessWord (access : MemberAccess) {name : String} (hname : Q name) :
    Q (access.word name) := by
  cases access <;> exact hQ.between hname (by decide) (by decide)

/-- A token is described by fixed texts, unless it is a word. -/
theorem describe {kind : TokenKind} (hkind : ∀ w, kind = .word w → Q w) : Q kind.describe := by
  cases kind with
  | word w => exact hQ.between (hkind w rfl) (by decide) (by decide)
  | str text => exact hQ.line (oneLine_ofList (by decide))
  | keyword k => exact hQ.between (hQ.line k.oneLine_text) (by decide) (by decide)
  | int n => exact hQ.between (hQ.line (oneLine_int64 n)) (by decide) (by decide)
  | bool b => exact hQ.between (hQ.line (oneLine_bool b)) (by decide) (by decide)
  | ptr n => exact hQ.between (hQ.line (oneLine_int64 n)) (by decide) (by decide)

variable {s : Symbols} (hs : ∀ d ∈ s.structs, Q d.name)

include hs

theorem typeName (ty : Ty) : Q (s.typeName ty) := by
  cases ty with
  | struct id =>
    change Q ((s.structs[id]?).elim (Ty.struct id).text (·.name))
    cases hd : s.structs[id]? with
    | none => exact hQ.line (Ty.oneLine_text (.struct id))
    | some d => exact hs d (List.mem_of_getElem? hd)
  | int | bool | ptr | any => exact hQ.line (Ty.oneLine_text _)

theorem shape (types : List Ty) : Q (s.shape types) := by
  refine hQ.between (hQ.intercalate (hQ.line (by decide)) ?_) (by decide)
    (by decide)
  intro text htext
  obtain ⟨ty, _, rfl⟩ := List.mem_map.mp htext
  exact hQ.typeName hs ty

end Quotable

/-! ## Messages -/

def Cause.texts : Cause → List String
  | unexpectedInput a | undeclaredWord a | unknownCast a | usedOutside a | structAsWord a
  | unexpectedKeyword a | outsideProcedure a | elseCloses a | unclosedBlock a | notBindingName a
  | unfinishedDeclaration a | extraColon a | nestedStruct a | unterminatedStruct a
  | missingMemberType a | emptyStruct a | regionSize a _ | notConstant a | foldUnderflow a
  | foldProduct a | foldCast a | notFoldable a | emptyInitializer a | initializerCount a _ _
  | strayOperation a | tooFewValues a _ _ | tooFewArguments a _ _ | endsInsideIf a | neverClosed a
  | danglingVariable a => [a]
  | unknownStruct a b | notStructOrSize a b | notMemberName a b | duplicateMember a b
  | notMemberType a b | nestedProcedure a b | outOfMemory a _ b | notStruct a b | noMember a b
  | bareIfEffect a b | branchEffects a b | procedureInside a b => [a, b]
  | memberDefault a b c | foldOperands a b c | initializerType a b c | operandType a b c
  | operandsDiffer a b c | argumentType _ a b c | procedureEffect a b c => [a, b, c]
  | elseWithoutIf | endWithoutBlock | unterminatedLet | emptyLet | bindingScope _ _
  | unclosedExpression | bindingNotInScope _ | elseMismatch | endMismatch | endWithoutIf
  | closedAsBare | closedWithElse | danglingProcedure _ | danglingStruct _ => []

def Remark.texts : Remark → List String
  | declaredHere a | alreadyDeclared a | openedHere a | typePushed a | insideProcedure a => [a]
  | innermostIf | branchEnds | valuePushed | enclosingProcedure => []

theorem Cause.oneLine_plural (n : Nat) : OneLine (plural n) := by
  unfold plural
  split <;> exact oneLine_ofList (by decide)

/-- A message is one line if all texts that it quotes are. -/
theorem Cause.oneLine_message {c : Cause} (h : ∀ text ∈ c.texts, OneLine text) :
    OneLine c.message := by
  -- The equations of a match with this many branches are slow to find, so both are opened by hand.
  cases c <;>
  · delta texts at h
    delta message
    simp_all only [List.mem_cons, List.not_mem_nil, or_false, forall_eq_or_imp, forall_eq,
      oneLine_append, oneLine_toString, oneLine_nat, oneLine_int, oneLine_plural, and_true,
      true_and]
    and_intros <;> exact oneLine_ofList (by decide)

theorem Remark.oneLine_message {m : Remark} (h : ∀ text ∈ m.texts, OneLine text) :
    OneLine m.message := by
  cases m <;>
  · delta texts at h
    delta message
    simp_all only [List.mem_cons, List.not_mem_nil, or_false, forall_eq, oneLine_append,
      oneLine_toString, and_true, true_and]
    and_intros <;> exact oneLine_ofList (by decide)

end StackEffect
