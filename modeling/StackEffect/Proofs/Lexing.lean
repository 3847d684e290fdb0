import StackEffect.Proofs.Except
import StackEffect.Proofs.LineStarts
import StackEffect.Token.Source

/-! # The order of tokens and the lines of a text

Lexemes are found from left to right, so the places of tokens are in order. A newline behind a text
that has tokens is always a gap: only an unclosed string literal could swallow it, and that spells
no token. So the tokens of a text do not change when lines are added behind it.
-/

namespace StackEffect

@[simp] theorem byteLength_append (as bs : List Char) :
    byteLength (as ++ bs) = byteLength as + byteLength bs := by
  induction as with
  | nil => simp [byteLength]
  | cons a as ih => simp [byteLength, ih, Nat.add_assoc]

theorem byteLength_ofList (cs : List Char) : byteLength cs = (String.ofList cs).utf8ByteSize := by
  induction cs with
  | nil => rfl
  | cons c cs ih => simp [byteLength, String.ofList_cons, ih]

theorem byteLength_toList (s : String) : byteLength s.toList = s.utf8ByteSize := by
  rw [byteLength_ofList, String.ofList_toList]

namespace SplitState

def starts (s : SplitState) : List Nat :=
  s.finish.map (·.start)

theorem start_starts (s : SplitState) (hmode : s.mode = .gap) (c : Char) :
    (s.start c).starts = s.starts ∨ (s.start c).starts = s.starts ++ [s.pos] := by
  unfold start
  simp only
  split
  · simp [starts, finish, hmode]
  split
  · simp [starts, finish, hmode]
  split <;> simp [starts, finish, hmode]

/-- A character starts at most one lexeme, and may show that the latest one was none. -/
theorem step_starts (s : SplitState) (c : Char) :
    (s.step c).starts = s.starts ∨ (s.step c).starts = s.starts ++ [s.pos] ∨
      (s.step c).starts = s.starts.dropLast := by
  change (s.read c).starts = _ ∨ (s.read c).starts = _ ∨ (s.read c).starts = _
  unfold read
  split
  · rename_i hmode
    rcases s.start_starts hmode c with h | h
    · exact .inl h
    · exact .inr (.inl h)
  · rename_i hmode
    split <;> simp [starts, finish, hmode]
  · rename_i l hmode
    unfold continueRun
    split
    · rcases start_starts ⟨s.done ++ [l], s.pos, .gap⟩ rfl c with h | h
      · refine .inl (h.trans ?_)
        simp [starts, finish, hmode]
      · refine .inr (.inl (h.trans ?_))
        simp [starts, finish, hmode]
    split <;> simp [starts, finish, hmode, Lexeme.extend]
  · rename_i l hmode
    unfold continueLiteral
    split
    · simp [starts, finish, hmode, Lexeme.extend]
    split <;> simp [starts, finish, hmode, Lexeme.extend]
  · rename_i l hmode
    split <;> simp [starts, finish, hmode, Lexeme.extend]
  · rename_i hmode
    simp [starts, finish, hmode]

/-- Lexemes start one behind the other, before the next character. -/
def Ordered (s : SplitState) : Prop :=
  s.starts.Pairwise (· < ·) ∧ ∀ i ∈ s.starts, i < s.pos

theorem Ordered.step {s : SplitState} (h : s.Ordered) (c : Char) : (s.step c).Ordered := by
  have hpos : (s.step c).pos = s.pos + c.utf8Size := rfl
  have hsize := c.utf8Size_pos
  obtain ⟨hsorted, hbound⟩ := h
  unfold Ordered
  rcases s.step_starts c with heq | heq | heq
  · rw [heq]
    refine ⟨hsorted, fun i hi => ?_⟩
    have := hbound i hi
    omega
  · rw [heq]
    refine ⟨List.pairwise_append.mpr ⟨hsorted, List.pairwise_singleton _ _, ?_⟩, ?_⟩
    · intro i hi j hj
      rw [List.mem_singleton.mp hj]
      exact hbound i hi
    · intro i hi
      rcases List.mem_append.mp hi with hi | hi
      · have := hbound i hi
        omega
      · rw [List.mem_singleton.mp hi]
        omega
  · rw [heq]
    refine ⟨hsorted.sublist (List.dropLast_sublist _), fun i hi => ?_⟩
    have := hbound i ((List.dropLast_sublist _).subset hi)
    omega

theorem Ordered.foldl {s : SplitState} (h : s.Ordered) (cs : List Char) :
    (cs.foldl SplitState.step s).Ordered := by
  induction cs generalizing s with
  | nil => exact h
  | cons c cs ih => exact ih (h.step c)

theorem foldl_pos (s : SplitState) (cs : List Char) :
    (cs.foldl step s).pos = s.pos + byteLength cs := by
  induction cs generalizing s with
  | nil => rfl
  | cons c cs ih =>
    rw [List.foldl_cons, ih, byteLength, ← Nat.add_assoc]
    rfl

end SplitState

theorem SplitState.Ordered.empty : SplitState.Ordered {} :=
  ⟨List.Pairwise.nil, by simp [SplitState.starts, SplitState.finish]⟩

/-- Lexemes are listed in the order in which they start. -/
theorem pairwise_lexemes (cs : List Char) : (lexemes cs).Pairwise (·.start < ·.start) :=
  List.pairwise_map.mp (SplitState.Ordered.empty.foldl cs).1

theorem start_lt_of_mem_lexemes {cs : List Char} {l : Lexeme} (h : l ∈ lexemes cs) :
    l.start < byteLength cs := by
  have hlt := (SplitState.Ordered.empty.foldl cs).2 l.start (List.mem_map_of_mem h)
  rwa [SplitState.foldl_pos, Nat.zero_add] at hlt

namespace TokenStream

variable {index : LineIndex} {file source : String}

theorem token_loc {l : Lexeme} {t : Token} (h : token index l = .ok t) :
    t.loc = index.locate ⟨l.start, l.stop⟩ := by
  unfold token at h
  split at h
  · cases h
    rfl
  · cases h

theorem starts_of_mapM_token {ls : List Lexeme} {ts : List Token}
    (h : ls.mapM (token index) = .ok ts) :
    ts.map (·.loc.span.start) = ls.map (·.start) := by
  induction ls generalizing ts with
  | nil =>
    cases h
    rfl
  | cons l ls ih =>
    obtain ⟨t, ts', ht, hts, rfl⟩ := mapM_cons_ok h
    rw [List.map_cons, List.map_cons, ih hts, token_loc ht, LineIndex.span_locate]

/-- The tokens of a text are listed in the order in which they start. -/
theorem pairwise_tokens {s : TokenStream} (h : ofSource file source = .ok s) :
    s.tokens.Pairwise (·.loc.span.start < ·.loc.span.start) := by
  obtain ⟨tokens, htokens, h⟩ := bind_eq_ok h
  cases h
  rw [← List.pairwise_map (R := (· < ·)), starts_of_mapM_token htokens]
  exact List.pairwise_map.mpr (pairwise_lexemes _)

end TokenStream

/-! ## Lines behind a text -/

def Lexeme.shift (offset : Nat) (l : Lexeme) : Lexeme :=
  { l with start := offset + l.start }

namespace SplitMode

def shift (offset : Nat) : SplitMode → SplitMode
  | run l => run (l.shift offset)
  | literal l => literal (l.shift offset)
  | escape l => escape (l.shift offset)
  | gap => gap
  | comment => comment
  | stuck => stuck

/-- In a string literal, or behind one that cannot be closed. -/
def isQuoted : SplitMode → Bool
  | literal _ | escape _ | stuck => true
  | gap | comment | run _ => false

end SplitMode

/-- Complete items of a string literal, none of which closes it. -/
inductive Unclosed : List Char → Prop
  | nil : Unclosed []
  | char {c : Char} {cs : List Char} (hquote : c ≠ '"') (hescape : c ≠ '\\') (h : Unclosed cs) :
      Unclosed (c :: cs)
  | escape {c : Char} {cs : List Char} (h : Unclosed cs) : Unclosed ('\\' :: c :: cs)

namespace Unclosed

theorem append {as bs : List Char} (has : Unclosed as) (hbs : Unclosed bs) :
    Unclosed (as ++ bs) := by
  induction has with
  | nil => exact hbs
  | char hquote hescape _ ih => exact .char hquote hescape ih
  | escape _ ih => exact .escape ih

theorem contents?_eq_none {cs : List Char} (h : Unclosed cs) : Spelling.contents? cs = none := by
  induction h with
  | nil => rfl
  | @char c cs hquote hescape _ ih =>
    unfold Spelling.contents?
    split
    · rfl
    · simp_all
    · simp_all
    · simp_all
    · simp_all
  | @escape c cs _ ih =>
    unfold Spelling.contents?
    simp [ih]

end Unclosed

def Lexeme.IsUnclosed (l : Lexeme) : Prop :=
  ∃ body, l.text = '"' :: body ∧ Unclosed body

theorem Lexeme.IsUnclosed.extend {l : Lexeme} (h : l.IsUnclosed) {cs : List Char}
    (hcs : Unclosed cs) : (l.extend cs).IsUnclosed := by
  obtain ⟨body, htext, hbody⟩ := h
  exact ⟨body ++ cs, by simp [Lexeme.extend, htext], hbody.append hcs⟩

theorem Lexeme.IsUnclosed.kind?_eq_none {l : Lexeme} (h : l.IsUnclosed) :
    Spelling.kind? l.text = none := by
  obtain ⟨body, htext, hbody⟩ := h
  simp [htext, Spelling.kind?, hbody.contents?_eq_none]

namespace SplitState

/-- A string literal under way is unclosed, and so is one that cannot be closed any more. -/
def Quoting (s : SplitState) : Prop :=
  match s.mode with
  | .literal l | .escape l => l.IsUnclosed
  | .stuck => ∃ l ∈ s.done, l.IsUnclosed
  | .gap | .comment | .run _ => True

theorem start_quoting (s : SplitState) (c : Char) : (s.start c).Quoting := by
  unfold start
  simp only
  split
  · trivial
  split
  · trivial
  split
  · rename_i hquote
    subst hquote
    exact ⟨[], rfl, .nil⟩
  · trivial

theorem Quoting.step {s : SplitState} (h : s.Quoting) (c : Char) : (s.step c).Quoting := by
  change (s.read c).Quoting
  unfold read
  split
  · exact s.start_quoting c
  · rename_i hmode
    split
    · trivial
    · exact h
  · rename_i l hmode
    unfold continueRun
    split
    · exact start_quoting _ c
    split <;> trivial
  · rename_i l hmode
    have hl : l.IsUnclosed := by simpa [Quoting, hmode] using h
    unfold continueLiteral
    split
    · trivial
    split
    · exact hl
    · rename_i hquote hescape
      exact hl.extend (.char hquote hescape .nil)
  · rename_i l hmode
    have hl : l.IsUnclosed := by simpa [Quoting, hmode] using h
    split
    · exact ⟨l, List.mem_append_right _ (List.mem_singleton_self l), hl⟩
    · exact hl.extend (.escape .nil)
  · exact h

theorem Quoting.foldl {s : SplitState} (h : s.Quoting) (cs : List Char) :
    (cs.foldl SplitState.step s).Quoting := by
  induction cs generalizing s with
  | nil => exact h
  | cons c cs ih => exact ih (h.step c)

theorem Quoting.exists_unclosed {s : SplitState} (h : s.Quoting) (hmode : s.mode.isQuoted) :
    ∃ l ∈ s.finish, l.IsUnclosed := by
  unfold Quoting at h
  split at h
  · rename_i l hl
    exact ⟨l, by simp [finish, hl], h⟩
  · rename_i l hl
    exact ⟨l, by simp [finish, hl], h⟩
  · rename_i hl
    obtain ⟨l, hmem, hl'⟩ := h
    exact ⟨l, by simpa [finish, hl] using hmem, hl'⟩
  all_goals simp_all [SplitMode.isQuoted]

/-- Unless it stands in a string literal, a newline ends what is under way. -/
theorem step_newline {s : SplitState} (h : s.mode.isQuoted = false) :
    s.step '\n' = ⟨s.finish, s.pos + 1, .gap⟩ := by
  have hblank : isBlank '\n' = true := rfl
  have hsize : Char.utf8Size '\n' = 1 := rfl
  unfold step read
  rw [hsize]
  split
  · rename_i hmode
    simp [start, hblank, finish, hmode]
  · rename_i hmode
    simp [finish, hmode]
  · rename_i l hmode
    simp [continueRun, start, hblank, finish, hmode]
  all_goals simp_all [SplitMode.isQuoted]

def behind (before : List Lexeme) (offset : Nat) (s : SplitState) : SplitState :=
  ⟨before ++ s.done.map (·.shift offset), offset + s.pos, s.mode.shift offset⟩

variable (before : List Lexeme) (offset : Nat)

theorem start_behind (s : SplitState) (c : Char) :
    (s.behind before offset).start c = (s.start c).behind before offset := by
  unfold start
  simp only
  split
  · rfl
  split
  · simp [behind, SplitMode.shift, Lexeme.shift]
  split <;> rfl

theorem read_behind (s : SplitState) (c : Char) :
    (s.behind before offset).read c = (s.read c).behind before offset := by
  obtain ⟨done, pos, mode⟩ := s
  cases mode with
  | gap => exact start_behind before offset _ c
  | comment =>
    simp only [read, behind, SplitMode.shift]
    split <;> rfl
  | run l =>
    change (behind before offset _).continueRun (l.shift offset) c = (continueRun _ l c).behind _ _
    unfold continueRun
    split
    · rw [← start_behind]
      simp [behind]
    · by_cases hslash : c = '/' ∧ l.text = ['/']
      · simp [behind, hslash, Lexeme.shift, SplitMode.shift]
      · simp [behind, hslash, Lexeme.shift, Lexeme.extend, SplitMode.shift]
  | literal l =>
    simp only [read, behind, SplitMode.shift, continueLiteral]
    split
    · simp [Lexeme.shift, Lexeme.extend]
    split <;> rfl
  | escape l =>
    simp only [read, behind, SplitMode.shift]
    split
    · simp
    · rfl
  | stuck => rfl

theorem foldl_behind (s : SplitState) (cs : List Char) :
    cs.foldl step (s.behind before offset) = (cs.foldl step s).behind before offset := by
  induction cs generalizing s with
  | nil => rfl
  | cons c cs ih =>
    have hstep : (s.behind before offset).step c = (s.step c).behind before offset := by
      simp only [step, read_behind]
      simp [behind, Nat.add_assoc]
    rw [List.foldl_cons, List.foldl_cons, hstep, ih]

theorem finish_behind (s : SplitState) :
    (s.behind before offset).finish = before ++ s.finish.map (·.shift offset) := by
  obtain ⟨done, pos, mode⟩ := s
  cases mode <;> simp [finish, behind, SplitMode.shift]

end SplitState

/-- The lexemes of a text stay as they are when lines are added behind it, provided that each of
them spells a token. -/
theorem lexemes_append_line {as : List Char} (bs : List Char)
    (h : ∀ l ∈ lexemes as, Spelling.kind? l.text ≠ none) :
    lexemes (as ++ '\n' :: bs) =
      lexemes as ++ (lexemes bs).map (·.shift (byteLength as + 1)) := by
  have hquoting : (as.foldl SplitState.step {}).Quoting := by
    have hempty : SplitState.Quoting {} := trivial
    exact hempty.foldl as
  have hmode : (as.foldl SplitState.step {}).mode.isQuoted = false := by
    rw [Bool.eq_false_iff]
    intro hquoted
    obtain ⟨l, hl, hunclosed⟩ := hquoting.exists_unclosed hquoted
    exact h l hl hunclosed.kind?_eq_none
  have hline : (as.foldl SplitState.step {}).step '\n' =
      SplitState.behind (lexemes as) (byteLength as + 1) {} := by
    rw [SplitState.step_newline hmode, SplitState.foldl_pos, Nat.zero_add]
    simp [SplitState.behind, SplitMode.shift, lexemes]
  rw [lexemes, List.foldl_append, List.foldl_cons, hline, SplitState.foldl_behind,
    SplitState.finish_behind]
  rfl

namespace LineIndex

theorem startsFrom_append (pos : Nat) (as bs : List Char) :
    startsFrom pos (as ++ bs) = startsFrom pos as ++ startsFrom (pos + byteLength as) bs := by
  induction as generalizing pos with
  | nil => rfl
  | cons a as ih =>
    by_cases ha : a = '\n'
    · subst ha
      have hsize : Char.utf8Size '\n' = 1 := rfl
      simp [startsFrom, ih, byteLength, hsize, Nat.add_assoc]
    · simp [startsFrom, ih, byteLength, ha, Nat.add_assoc]

/-- Places in a text stay as they are when lines are added behind it. -/
theorem locate_append_line (file as bs : String) (span : Span)
    (h : span.start ≤ byteLength as.toList) :
    (ofSource file (as ++ "\n" ++ bs)).locate span = (ofSource file as).locate span := by
  have hbehind : ∀ i ∈ startsFrom (byteLength as.toList) ('\n' :: bs.toList),
      ¬ decide (i ≤ span.start) = true := by
    intro i hi
    have := lt_of_mem_startsFrom hi
    simp only [decide_eq_true_eq]
    omega
  have hstarts : (ofSource file (as ++ "\n" ++ bs)).starts =
      (ofSource file as).starts ++ startsFrom (byteLength as.toList) ('\n' :: bs.toList) := by
    simp [ofSource, startsFrom_append]
  rw [locate_ofSource, locate_ofSource, hstarts, List.filter_append,
    List.filter_eq_nil_iff.mpr hbehind, List.append_nil]

end LineIndex

namespace TokenStream

variable {index : LineIndex} {file : String}

theorem kind?_of_mapM_token {ls : List Lexeme} {ts : List Token}
    (h : ls.mapM (token index) = .ok ts) : ∀ l ∈ ls, Spelling.kind? l.text ≠ none := by
  induction ls generalizing ts with
  | nil => simp
  | cons l ls ih =>
    obtain ⟨t, ts', ht, hts, rfl⟩ := mapM_cons_ok h
    refine List.forall_mem_cons.mpr ⟨fun hnone => ?_, ih hts⟩
    simp [token, hnone] at ht

theorem mapM_token_append_line (file as bs : String) {ls : List Lexeme}
    (h : ∀ l ∈ ls, l.start ≤ byteLength as.toList) :
    ls.mapM (token (.ofSource file (as ++ "\n" ++ bs))) =
      ls.mapM (token (.ofSource file as)) := by
  induction ls with
  | nil => rfl
  | cons l ls ih =>
    obtain ⟨hl, hls⟩ := List.forall_mem_cons.mp h
    have htoken : token (.ofSource file (as ++ "\n" ++ bs)) l = token (.ofSource file as) l := by
      simp only [token, LineIndex.locate_append_line file as bs ⟨l.start, l.stop⟩ hl]
    rw [List.mapM_cons, List.mapM_cons, htoken, ih hls]

end TokenStream

end StackEffect
