import Mathlib.Data.List.Forall2
import StackEffect.Proofs.RelocatedCheck
import StackEffect.Proofs.RelocatedResolution

/-! # Where tokens stand

Two texts with the same tokens have the same outcome, however their tokens are placed. Both streams
are images of one stream whose places are the numbers of its tokens, and resolving and checking
commute with moving places: so both outcomes are images of one outcome, place by place.
-/

namespace StackEffect

namespace TokenStream

def place (s : TokenStream) (i : Nat) : Location :=
  (s.tokens[i]?).elim s.eof (·.loc)

/-- Places in two texts that belong to the tokens with one number, or both to the end. -/
def SamePlace (s t : TokenStream) (l l' : Location) : Prop :=
  ∃ i ≤ s.tokens.length, l = s.place i ∧ l' = t.place i

/-- The place that stands for the token with a number. -/
def mark (i : Nat) : Location :=
  ⟨"", 0, 0, ⟨i, i⟩⟩

def numbered (kinds : List TokenKind) : TokenStream :=
  ⟨kinds.mapIdx fun i kind => ⟨kind, mark i⟩, mark kinds.length⟩

theorem relocate_numbered (s : TokenStream) :
    (numbered (s.tokens.map (·.kind))).relocate (fun l => s.place l.span.start) = s := by
  obtain ⟨tokens, eof⟩ := s
  have htokens : (numbered (tokens.map (·.kind))).tokens.map
      (Token.relocate fun l => place ⟨tokens, eof⟩ l.span.start) = tokens := by
    apply List.ext_getElem
    · simp [numbered]
    · intro i hi hi'
      simp [numbered, Token.relocate, place, mark, hi']
  have heof : place ⟨tokens, eof⟩ (mark tokens.length).span.start = eof := by simp [place, mark]
  simpa [relocate, numbered, heof] using htokens

theorem samePlace_place {s t : TokenStream} (hlength : s.tokens.length = t.tokens.length)
    (i : Nat) : s.SamePlace t (s.place i) (t.place i) := by
  by_cases hi : i ≤ s.tokens.length
  · exact ⟨i, hi, rfl, rfl⟩
  · refine ⟨s.tokens.length, Nat.le_refl _, ?_, ?_⟩
    · simp [place, List.getElem?_eq_none (by omega : s.tokens.length ≤ i)]
    · simp [place, List.getElem?_eq_none (by omega : t.tokens.length ≤ i), hlength]

end TokenStream

open TokenStream (SamePlace)

/-- Rejections that say the same about corresponding places of two texts. The cause holds the kind
of the rejection and its message, and a remark its text. -/
structure Fault.Matches (s t : TokenStream) (e e' : Fault) : Prop where
  cause : e.cause = e'.cause
  place : s.SamePlace t e.loc e'.loc
  remarks : e.notes.map (·.remark) = e'.notes.map (·.remark)
  notePlaces : List.Forall₂ (s.SamePlace t) (e.notes.map (·.loc)) (e'.notes.map (·.loc))

/-- Programs that are equal up to places, those of their operations being corresponding ones. -/
structure Checked.Matches (s t : TokenStream) (c c' : Checked) : Prop where
  kinds : c.program.ops.map (·.kind) = c'.program.ops.map (·.kind)
  places : List.Forall₂ (s.SamePlace t) (c.program.ops.map (·.loc)) (c'.program.ops.map (·.loc))
  contracts : c.contracts = c'.contracts
  strings : c.program.strings = c'.program.strings
  symbols : ∀ l, c.program.symbols.relocate (fun _ => l) = c'.program.symbols.relocate fun _ => l

/-- Both texts are accepted, with matching programs, or both rejected, with matching rejections. -/
inductive OutcomesMatch (s t : TokenStream) : Except Fault Checked → Except Fault Checked → Prop
  | accepted {c c' : Checked} (h : c.Matches s t c') : OutcomesMatch s t (.ok c) (.ok c')
  | rejected {e e' : Fault} (h : e.Matches s t e') : OutcomesMatch s t (.error e) (.error e')

theorem Symbols.relocate_relocate (f g : Location → Location) (s : Symbols) :
    (s.relocate f).relocate g = s.relocate (g ∘ f) := by
  simp [relocate, Memory.relocate, Procedure.relocate, StructDef.relocate, Scalar.relocate,
    Aggregate.relocate, Region.relocate, Function.comp_def]

section Images

variable {s t : TokenStream} {f g : Location → Location}

theorem Fault.Matches.of_relocate (hplaces : ∀ l, s.SamePlace t (f l) (g l)) (e : Fault) :
    (e.relocate f).Matches s t (e.relocate g) where
  cause := rfl
  place := hplaces e.loc
  remarks := by simp [relocate, Note.relocate, Function.comp_def]
  notePlaces := by simp [relocate, Note.relocate, List.forall₂_same, hplaces]

theorem Checked.Matches.of_relocate (hplaces : ∀ l, s.SamePlace t (f l) (g l)) (c : Checked) :
    (c.relocate f).Matches s t (c.relocate g) where
  kinds := by simp [relocate, Program.relocate, Op.relocate, Function.comp_def]
  places := by simp [relocate, Program.relocate, Op.relocate, List.forall₂_same, hplaces]
  contracts := rfl
  strings := rfl
  symbols l := by
    have hconst (h : Location → Location) :
        (c.program.symbols.relocate h).relocate (fun _ => l) =
          c.program.symbols.relocate fun _ => l :=
      Symbols.relocate_relocate h _ _
    exact (hconst f).trans (hconst g).symm

/-- Two images of one outcome match if the places do. -/
theorem OutcomesMatch.of_relocate (hplaces : ∀ l, s.SamePlace t (f l) (g l))
    (x : Except Fault Checked) :
    OutcomesMatch s t (relocateBy f (Checked.relocate f) x)
      (relocateBy g (Checked.relocate g) x) := by
  cases x with
  | ok c => exact .accepted (Checked.Matches.of_relocate hplaces c)
  | error e => exact .rejected (Fault.Matches.of_relocate hplaces e)

end Images

/-- The outcome for a text is that for its numbered tokens, moved to where the tokens stand. -/
theorem Checked.ofSource_eq_relocate {file source : String} {s : TokenStream}
    (hs : TokenStream.ofSource file source = .ok s) :
    Checked.ofSource file source =
      relocateBy (fun l => s.place l.span.start) (Checked.relocate fun l => s.place l.span.start)
        (Program.ofTokens (.numbered (s.tokens.map (·.kind))) >>= Checked.ofProgram) := by
  have htokens := Program.ofTokens_relocate (fun l => s.place l.span.start)
    (.numbered (s.tokens.map (·.kind)))
  rw [s.relocate_numbered] at htokens
  rw [Checked.ofSource, Program.ofSource, hs, ok_bind, htokens]
  exact relocateBy_bind (Checked.ofProgram_relocate _) _

/-- Where the tokens of a text stand has no influence on how it is compiled: texts with the same
tokens are both accepted, with programs that are equal up to places, or both rejected in the same
words about the same tokens. -/
theorem outcomes_depend_on_tokens_only {file file' source source' : String} {s t : TokenStream}
    (hs : TokenStream.ofSource file source = .ok s)
    (ht : TokenStream.ofSource file' source' = .ok t)
    (hkinds : s.tokens.map (·.kind) = t.tokens.map (·.kind)) :
    OutcomesMatch s t (Checked.ofSource file source) (Checked.ofSource file' source') := by
  have hlength : s.tokens.length = t.tokens.length := by
    simpa using congrArg List.length hkinds
  rw [Checked.ofSource_eq_relocate hs, Checked.ofSource_eq_relocate ht, ← hkinds]
  exact OutcomesMatch.of_relocate (fun l => TokenStream.samePlace_place hlength l.span.start) _

def memberTexts : String × String :=
  ("P struct a int b int end p : P 1 2 end f :: -> int *p .b end",
    "P struct a int // first\n b int end\n\np : P 1 2 end\nf :: -> int\n  *p .b end")

def mixedSumTexts : String × String :=
  ("f :: 1 true + print end", "f ::\n 1 // one\n true +\n print end")

theorem outcomes_of_respaced_texts_match :
    (∃ s t c c', TokenStream.ofSource "one" memberTexts.1 = .ok s ∧
      TokenStream.ofSource "two" memberTexts.2 = .ok t ∧
      s.tokens.map (·.kind) = t.tokens.map (·.kind) ∧
      Checked.ofSource "one" memberTexts.1 = .ok c ∧
      Checked.ofSource "two" memberTexts.2 = .ok c' ∧ c.Matches s t c') ∧
    ∃ s t e e', TokenStream.ofSource "one" mixedSumTexts.1 = .ok s ∧
      TokenStream.ofSource "two" mixedSumTexts.2 = .ok t ∧
      s.tokens.map (·.kind) = t.tokens.map (·.kind) ∧
      Checked.ofSource "one" mixedSumTexts.1 = .error e ∧
      Checked.ofSource "two" mixedSumTexts.2 = .error e' ∧ e.notes.length = 2 ∧
      e.Matches s t e' := by
  have hlex (texts : String × String)
      (hsome : (TokenStream.ofSource "one" texts.1).toOption.isSome ∧
        (TokenStream.ofSource "two" texts.2).toOption.isSome)
      (hkinds : (TokenStream.ofSource "one" texts.1).toOption.map (·.tokens.map (·.kind)) =
        (TokenStream.ofSource "two" texts.2).toOption.map (·.tokens.map (·.kind))) :
      ∃ s t, TokenStream.ofSource "one" texts.1 = .ok s ∧
        TokenStream.ofSource "two" texts.2 = .ok t ∧
        s.tokens.map (·.kind) = t.tokens.map (·.kind) := by
    cases hs : TokenStream.ofSource "one" texts.1 with
    | error e => simp [hs, Except.toOption] at hsome
    | ok s =>
      cases ht : TokenStream.ofSource "two" texts.2 with
      | error e => simp [ht, Except.toOption] at hsome
      | ok t => exact ⟨s, t, rfl, rfl, by simpa [hs, ht, Except.toOption] using hkinds⟩
  constructor
  · obtain ⟨s, t, hs, ht, hkinds⟩ := hlex memberTexts (by decide +kernel) (by decide +kernel)
    have hmatch := outcomes_depend_on_tokens_only hs ht hkinds
    have hok : (Checked.ofSource "one" memberTexts.1).toOption.isSome := by decide +kernel
    refine ⟨s, t, ?_⟩
    generalize Checked.ofSource "one" memberTexts.1 = x at hmatch hok ⊢
    generalize Checked.ofSource "two" memberTexts.2 = y at hmatch ⊢
    cases hmatch with
    | accepted h => exact ⟨_, _, hs, ht, hkinds, rfl, rfl, h⟩
    | rejected h => cases hok
  · obtain ⟨s, t, hs, ht, hkinds⟩ := hlex mixedSumTexts (by decide +kernel) (by decide +kernel)
    have hmatch := outcomes_depend_on_tokens_only hs ht hkinds
    have hnotes : (match Checked.ofSource "one" mixedSumTexts.1 with
        | .ok _ => 0
        | .error e => e.notes.length) = 2 := by decide +kernel
    refine ⟨s, t, ?_⟩
    generalize Checked.ofSource "one" mixedSumTexts.1 = x at hmatch hnotes ⊢
    generalize Checked.ofSource "two" mixedSumTexts.2 = y at hmatch ⊢
    cases hmatch with
    | accepted h => cases hnotes
    | rejected h => exact ⟨_, _, hs, ht, hkinds, rfl, rfl, hnotes, h⟩

end StackEffect
