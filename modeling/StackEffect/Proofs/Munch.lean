import Mathlib.Data.List.TakeWhile
import StackEffect.Proofs.Lexing

/-! # Gaps and token texts

A text is read from left to right: a gap of blanks and comments, the text of a token, and so on up
to a last gap. A token text is a colon, a complete string literal, or a run that cannot be extended
and does not start like a comment. No pattern of the language matches a longer piece where a token
text stands. The lexemes of a text are exactly the token texts that are read in this way, with an
unterminated string literal behind them if there is one.
-/

namespace StackEffect

/-- The characters of a run: neither blanks nor colons nor quotes. -/
def isRunChar (c : Char) : Bool :=
  !(isBlank c || c == ':' || c == '"')

/-- Complete items of a string literal: a character that is neither a quote nor a backslash, or a
backslash with any character but a newline. -/
inductive LiteralItems : List Char → Prop
  | nil : LiteralItems []
  | char {c : Char} {cs : List Char} (hquote : c ≠ '"') (hescape : c ≠ '\\')
      (h : LiteralItems cs) : LiteralItems (c :: cs)
  | escape {c : Char} {cs : List Char} (hline : c ≠ '\n') (h : LiteralItems cs) :
      LiteralItems ('\\' :: c :: cs)

/-- The texts that the patterns of the language match. Keywords and integers are runs. -/
inductive Pattern : List Char → Prop
  | blanks {cs : List Char} (hne : cs ≠ []) (hblank : ∀ c ∈ cs, isBlank c) : Pattern cs
  | comment {body : List Char} (hbody : '\n' ∉ body) : Pattern ('/' :: '/' :: body)
  | colon : Pattern [':']
  | literal {body : List Char} (hbody : LiteralItems body) : Pattern ('"' :: (body ++ ['"']))
  | run {cs : List Char} (hne : cs ≠ []) (hrun : ∀ c ∈ cs, isRunChar c) : Pattern cs

/-- The text of a token in front of `rest`. -/
inductive TokenText (rest : List Char) : List Char → Prop
  | colon : TokenText rest [':']
  | literal {body : List Char} (hbody : LiteralItems body) :
      TokenText rest ('"' :: (body ++ ['"']))
  | run {cs : List Char} (hne : cs ≠ []) (hrun : ∀ c ∈ cs, isRunChar c)
      (hlast : ∀ c, rest.head? = some c → isRunChar c = false) (hslashes : ¬ ['/', '/'] <+: cs) :
      TokenText rest cs

/-- A gap in front of `rest`: blanks, and comments that go on to a newline or to the end of the
text. -/
inductive Gap (rest : List Char) : List Char → Prop
  | nil : Gap rest []
  | blank {c : Char} {cs : List Char} (hblank : isBlank c) (h : Gap rest cs) : Gap rest (c :: cs)
  | comment {body cs : List Char} (hbody : '\n' ∉ body)
      (hlast : ∀ c, (cs ++ rest).head? = some c → c = '\n') (h : Gap rest cs) :
      Gap rest ('/' :: '/' :: (body ++ cs))

/-- A text at offset `pos` is read up to offset `stop`, where `rest` is left: the lexemes are the
token texts that have been read, with a gap before each. -/
inductive Reads : Nat → List Char → List Lexeme → Nat → List Char → Prop
  | start {pos : Nat} {cs : List Char} : Reads pos cs [] pos cs
  | token {pos stop : Nat} {gap text cs rest : List Char} {ls : List Lexeme}
      (hgap : Gap (text ++ cs) gap) (htext : TokenText cs text)
      (h : Reads (pos + byteLength gap + byteLength text) cs ls stop rest) :
      Reads pos (gap ++ (text ++ cs)) (⟨pos + byteLength gap, text⟩ :: ls) stop rest

/-- What stops a string literal before its closing quote: the end of the text, or a backslash at the
end of the text or of a line. -/
inductive Stuck : List Char → Prop
  | eof : Stuck []
  | backslash : Stuck ['\\']
  | line {cs : List Char} : Stuck ('\\' :: '\n' :: cs)

theorem TokenText.ne_nil {rest text : List Char} (h : TokenText rest text) : text ≠ [] := by
  cases h with
  | colon => simp
  | literal => simp
  | run hne => exact hne

theorem TokenText.pattern {rest text : List Char} (h : TokenText rest text) : Pattern text := by
  cases h with
  | colon => exact .colon
  | literal hbody => exact .literal hbody
  | run hne hrun => exact .run hne hrun

/-! ## What the splitter does with each part -/

namespace SplitState

variable {done : List Lexeme} {pos : Nat} {l : Lexeme} {c : Char}

theorem step_blank (h : isBlank c) :
    step ⟨done, pos, .gap⟩ c = ⟨done, pos + c.utf8Size, .gap⟩ := by
  simp [step, read, start, h]

theorem step_runChar (h : isRunChar c) :
    step ⟨done, pos, .gap⟩ c = ⟨done, pos + c.utf8Size, .run ⟨pos, [c]⟩⟩ := by
  simp only [isRunChar, Bool.not_eq_true', Bool.or_eq_false_iff, beq_eq_false_iff_ne] at h
  simp [step, read, start, h]

theorem step_run (h : isRunChar c) (hslashes : ¬ (c = '/' ∧ l.text = ['/'])) :
    step ⟨done, pos, .run l⟩ c = ⟨done, pos + c.utf8Size, .run (l.extend [c])⟩ := by
  have hcontinue : (isBlank c || c == ':' || c == '"') = false := by simpa [isRunChar] using h
  simp only [step, read, continueRun, hcontinue, Bool.false_eq_true, if_false, if_neg hslashes]

/-- A character that is not part of a run is read as if the run had been closed before. -/
theorem step_behind_run (h : isRunChar c = false) :
    step ⟨done, pos, .run l⟩ c = step ⟨done ++ [l], pos, .gap⟩ c := by
  have hends : (isBlank c || c == ':' || c == '"') = true := by
    simpa only [isRunChar, Bool.not_eq_false'] using h
  simp only [step, read, continueRun, hends, if_true]
  by_cases hblank : isBlank c
  · simp [start, hblank]
  · by_cases hcolon : c = ':'
    · simp [start, hcolon]
    · have hquote : c = '"' := by simpa [hblank, hcolon] using hends
      subst hquote
      rfl

theorem foldl_run {cs : List Char} (hrun : ∀ c ∈ cs, isRunChar c)
    (hslashes : ¬ ['/', '/'] <+: l.text ++ cs) :
    cs.foldl step ⟨done, pos, .run l⟩ = ⟨done, pos + byteLength cs, .run (l.extend cs)⟩ := by
  induction cs generalizing pos l with
  | nil => simp [byteLength, Lexeme.extend]
  | cons c cs ih =>
    have hfirst : ¬ (c = '/' ∧ l.text = ['/']) := by
      rintro ⟨rfl, htext⟩
      apply hslashes
      simp [htext]
    have hnext : ¬ ['/', '/'] <+: (l.extend [c]).text ++ cs := by
      simpa [Lexeme.extend] using hslashes
    rw [List.foldl_cons, step_run (hrun c List.mem_cons_self) hfirst,
      ih (fun d hd => hrun d (List.mem_cons_of_mem c hd)) hnext]
    simp [Lexeme.extend, byteLength, Nat.add_assoc]

theorem foldl_comment {body : List Char} (hbody : '\n' ∉ body) :
    body.foldl step ⟨done, pos, .comment⟩ = ⟨done, pos + byteLength body, .comment⟩ := by
  induction body generalizing pos with
  | nil => rfl
  | cons c body ih =>
    obtain ⟨hc, hrest⟩ : '\n' ≠ c ∧ '\n' ∉ body := by simpa using hbody
    have hstep : step ⟨done, pos, .comment⟩ c = ⟨done, pos + c.utf8Size, .comment⟩ := by
      simp [step, read, Ne.symm hc]
    rw [List.foldl_cons, hstep, ih hrest, byteLength, Nat.add_assoc]

theorem foldl_items {body : List Char} (h : LiteralItems body) :
    body.foldl step ⟨done, pos, .literal l⟩ =
      ⟨done, pos + byteLength body, .literal (l.extend body)⟩ := by
  induction h generalizing pos l with
  | nil => simp [byteLength, Lexeme.extend]
  | @char c cs hquote hescape h ih =>
    have hstep : step ⟨done, pos, .literal l⟩ c =
        ⟨done, pos + c.utf8Size, .literal (l.extend [c])⟩ := by
      simp [step, read, continueLiteral, hquote, hescape]
    rw [List.foldl_cons, hstep, ih]
    simp [Lexeme.extend, byteLength, Nat.add_assoc]
  | @escape c cs hline h ih =>
    have hsize : Char.utf8Size '\\' = 1 := rfl
    have hstep : step (step ⟨done, pos, .literal l⟩ '\\') c =
        ⟨done, pos + 1 + c.utf8Size, .literal (l.extend ['\\', c])⟩ := by
      simp [step, read, continueLiteral, hline, hsize]
    rw [List.foldl_cons, List.foldl_cons, hstep, ih]
    simp [Lexeme.extend, byteLength, hsize, Nat.add_assoc]

end SplitState

def splitFrom (done : List Lexeme) (pos : Nat) (cs : List Char) : List Lexeme :=
  (cs.foldl SplitState.step ⟨done, pos, .gap⟩).finish

theorem lexemes_eq_splitFrom (cs : List Char) : lexemes cs = splitFrom [] 0 cs := rfl

section Splitting

variable {done : List Lexeme} {pos stop : Nat} {cs rest text gap body : List Char}
  {ls : List Lexeme}

/-- Behind a comment the text is split as from a place between lexemes. -/
theorem split_behind_comment (hlast : ∀ c, cs.head? = some c → c = '\n') :
    (cs.foldl SplitState.step ⟨done, pos, .comment⟩).finish = splitFrom done pos cs := by
  cases cs with
  | nil => rfl
  | cons c cs =>
    obtain rfl := hlast c rfl
    rfl

theorem Gap.split (h : Gap rest gap) :
    splitFrom done pos (gap ++ rest) = splitFrom done (pos + byteLength gap) rest := by
  induction h generalizing pos with
  | nil => rfl
  | @blank c cs hblank h ih =>
    rw [splitFrom, List.cons_append, List.foldl_cons, SplitState.step_blank hblank]
    exact ih.trans (by rw [byteLength, Nat.add_assoc])
  | @comment body cs hbody hlast h ih =>
    have hsize : Char.utf8Size '/' = 1 := rfl
    have hopen : ['/', '/'].foldl SplitState.step ⟨done, pos, .gap⟩ =
        ⟨done, pos + 2, .comment⟩ := rfl
    have htext : '/' :: '/' :: (body ++ cs) ++ rest = ['/', '/'] ++ (body ++ (cs ++ rest)) := by
      simp
    have hlength : pos + 2 + byteLength body + byteLength cs =
        pos + byteLength ('/' :: '/' :: (body ++ cs)) := by
      simp only [byteLength, byteLength_append, hsize]
      omega
    rw [splitFrom, htext, List.foldl_append, hopen, List.foldl_append,
      SplitState.foldl_comment hbody, split_behind_comment hlast, ih, hlength]

/-- Behind a run the text is split as from a place between lexemes. -/
theorem split_behind_run {l : Lexeme} (hlast : ∀ c, cs.head? = some c → isRunChar c = false) :
    (cs.foldl SplitState.step ⟨done, pos, .run l⟩).finish = splitFrom (done ++ [l]) pos cs := by
  cases cs with
  | nil => rfl
  | cons c cs => rw [List.foldl_cons, SplitState.step_behind_run (hlast c rfl)]; rfl

theorem TokenText.split (h : TokenText rest text) :
    splitFrom done pos (text ++ rest) =
      splitFrom (done ++ [⟨pos, text⟩]) (pos + byteLength text) rest := by
  cases h with
  | colon => rfl
  | @literal body hbody =>
    have hopen : SplitState.step ⟨done, pos, .gap⟩ '"' = ⟨done, pos + 1, .literal ⟨pos, ['"']⟩⟩ :=
      rfl
    have htext : '"' :: (body ++ ['"']) ++ rest = '"' :: (body ++ '"' :: rest) := by simp
    have hsize : Char.utf8Size '"' = 1 := rfl
    rw [splitFrom, htext, List.foldl_cons, hopen, List.foldl_append, SplitState.foldl_items hbody,
      List.foldl_cons]
    have hclose : SplitState.step ⟨done, pos + 1 + byteLength body,
          .literal (Lexeme.extend ⟨pos, ['"']⟩ body)⟩ '"' =
        ⟨done ++ [⟨pos, '"' :: (body ++ ['"'])⟩], pos + byteLength ('"' :: (body ++ ['"'])),
          .gap⟩ := by
      simp [SplitState.step, SplitState.read, SplitState.continueLiteral, Lexeme.extend, byteLength,
        hsize, Nat.add_assoc, Nat.add_comm, Nat.add_left_comm]
    rw [hclose]
    rfl
  | run hne hrun hlast hslashes =>
    obtain ⟨c, cs, rfl⟩ := List.exists_cons_of_ne_nil hne
    obtain ⟨hc, hcs⟩ := List.forall_mem_cons.mp hrun
    have hmore : (c :: cs).foldl SplitState.step ⟨done, pos, .gap⟩ =
        ⟨done, pos + byteLength (c :: cs), .run ⟨pos, c :: cs⟩⟩ := by
      rw [List.foldl_cons, SplitState.step_runChar hc,
        SplitState.foldl_run (l := ⟨pos, [c]⟩) hcs hslashes, byteLength, Nat.add_assoc]
      rfl
    rw [splitFrom, List.foldl_append, hmore, split_behind_run hlast]

/-- Whatever has been read is found by the splitter. -/
theorem Reads.split (h : Reads pos cs ls stop rest) :
    splitFrom done pos cs = splitFrom (done ++ ls) stop rest := by
  induction h generalizing done with
  | start => simp
  | token hgap htext h ih => rw [hgap.split, htext.split, ih, List.append_assoc]; rfl

theorem Reads.lexemes_eq (h : Reads 0 cs ls stop gap) (hgap : Gap [] gap) : lexemes cs = ls := by
  have hend : splitFrom ls stop (gap ++ []) = splitFrom ls (stop + byteLength gap) [] := hgap.split
  rw [List.append_nil] at hend
  rw [lexemes_eq_splitFrom, h.split, List.nil_append, hend]
  rfl

/-- A literal that is stopped before its closing quote is the last lexeme. -/
theorem split_stuck (hbody : LiteralItems body) (hstuck : Stuck rest) :
    splitFrom done pos ('"' :: (body ++ rest)) = done ++ [⟨pos, '"' :: body⟩] := by
  have hopen : SplitState.step ⟨done, pos, .gap⟩ '"' = ⟨done, pos + 1, .literal ⟨pos, ['"']⟩⟩ :=
    rfl
  rw [splitFrom, List.foldl_cons, hopen, List.foldl_append, SplitState.foldl_items hbody]
  cases hstuck with
  | eof => rfl
  | backslash => rfl
  | @line cs =>
    have hstay (s : SplitState) (hs : s.mode = .stuck) :
        (cs.foldl SplitState.step s).finish = s.done := by
      induction cs generalizing s with
      | nil => simp [SplitState.finish, hs]
      | cons c cs ih =>
        have hnext : s.step c = { s with pos := s.pos + c.utf8Size } := by
          simp [SplitState.step, SplitState.read, hs]
        rw [List.foldl_cons, hnext]
        exact ih _ hs
    exact hstay _ rfl

end Splitting

/-! ## Every text can be read -/

theorem head?_dropWhile_eq_false (p : Char → Bool) (cs : List Char) :
    ∀ c, (cs.dropWhile p).head? = some c → p c = false := by
  intro c hc
  have hstop := List.head?_dropWhile_not p cs
  rwa [hc] at hstop

/-- Every text starts with a gap, behind which no other gap could start. -/
theorem exists_gap (cs : List Char) :
    ∃ gap rest, cs = gap ++ rest ∧ Gap rest gap ∧ ¬ ['/', '/'] <+: rest ∧
      ∀ c, rest.head? = some c → isBlank c = false := by
  -- By induction on the length: a comment takes several characters at once.
  induction hn : cs.length using Nat.strongRecOn generalizing cs with
  | _ n ih =>
    subst hn
    by_cases hslashes : ['/', '/'] <+: cs
    · obtain ⟨tail, rfl⟩ := hslashes
      have hshorter : (tail.dropWhile (· ≠ '\n')).length < (['/', '/'] ++ tail).length := by
        have hle := (List.dropWhile_sublist (l := tail) (· ≠ '\n')).length_le
        rw [List.length_append]
        exact Nat.lt_of_le_of_lt hle (Nat.lt_add_of_pos_left (by simp))
      obtain ⟨gap, rest, htail, hgap, hrest⟩ := ih _ hshorter _ rfl
      refine ⟨'/' :: '/' :: (tail.takeWhile (· ≠ '\n') ++ gap), rest, ?_,
        .comment ?_ ?_ hgap, hrest⟩
      · have hsplit := List.takeWhile_append_dropWhile (p := (· ≠ '\n')) (l := tail)
        rw [htail] at hsplit
        simp only [List.cons_append, List.nil_append, List.append_assoc, hsplit]
      · intro hmem
        simpa using List.mem_takeWhile_imp hmem
      · intro c hc
        rw [← htail] at hc
        simpa using head?_dropWhile_eq_false _ tail c hc
    · cases cs with
      | nil => exact ⟨[], [], rfl, .nil, hslashes, by simp⟩
      | cons c cs =>
        by_cases hblank : isBlank c
        · obtain ⟨gap, rest, rfl, hgap, hrest⟩ := ih cs.length (by simp) cs rfl
          exact ⟨c :: gap, rest, rfl, .blank hblank hgap, hrest⟩
        · exact ⟨[], c :: cs, rfl, .nil, hslashes, by simpa using hblank⟩

/-- Behind its opening quote a literal is closed or stopped. -/
theorem exists_items (cs : List Char) :
    ∃ body rest, cs = body ++ rest ∧ LiteralItems body ∧
      (Stuck rest ∨ ∃ tail, rest = '"' :: tail) := by
  induction hn : cs.length using Nat.strongRecOn generalizing cs with
  | _ n ih =>
    subst hn
    cases cs with
    | nil => exact ⟨[], [], rfl, .nil, .inl .eof⟩
    | cons c cs =>
      by_cases hquote : c = '"'
      · subst hquote
        exact ⟨[], _, rfl, .nil, .inr ⟨cs, rfl⟩⟩
      by_cases hescape : c = '\\'
      · subst hescape
        cases cs with
        | nil => exact ⟨[], _, rfl, .nil, .inl .backslash⟩
        | cons d cs =>
          by_cases hline : d = '\n'
          · subst hline
            exact ⟨[], _, rfl, .nil, .inl .line⟩
          · have hshorter : cs.length < ('\\' :: d :: cs).length := by
              simp only [List.length_cons]
              omega
            obtain ⟨body, rest, rfl, hbody, hrest⟩ := ih cs.length hshorter cs rfl
            exact ⟨_, rest, rfl, .escape hline hbody, hrest⟩
      · obtain ⟨body, rest, rfl, hbody, hrest⟩ := ih cs.length (by simp) cs rfl
        exact ⟨c :: body, rest, rfl, .char hquote hescape hbody, hrest⟩

/-- Where a token could start there is a token text or a literal that is stopped. -/
theorem exists_tokenText {cs : List Char} (hne : cs ≠ []) (hslashes : ¬ ['/', '/'] <+: cs)
    (hblank : ∀ c, cs.head? = some c → isBlank c = false) :
    (∃ text rest, cs = text ++ rest ∧ TokenText rest text) ∨
      ∃ body rest, cs = '"' :: (body ++ rest) ∧ LiteralItems body ∧ Stuck rest := by
  obtain ⟨c, cs, rfl⟩ := List.exists_cons_of_ne_nil hne
  by_cases hcolon : c = ':'
  · subst hcolon
    exact .inl ⟨[':'], cs, rfl, .colon⟩
  by_cases hquote : c = '"'
  · subst hquote
    obtain ⟨body, rest, rfl, hbody, hstuck | ⟨tail, rfl⟩⟩ := exists_items cs
    · exact .inr ⟨body, rest, rfl, hbody, hstuck⟩
    · exact .inl ⟨'"' :: (body ++ ['"']), tail, by simp, .literal hbody⟩
  · have hc : isRunChar c := by simp [isRunChar, hblank c rfl, hcolon, hquote]
    have hsplit := List.takeWhile_append_dropWhile (p := isRunChar) (l := c :: cs)
    refine .inl ⟨(c :: cs).takeWhile isRunChar, (c :: cs).dropWhile isRunChar, hsplit.symm,
      .run ?_ ?_ (head?_dropWhile_eq_false _ _) ?_⟩
    · simp [hc]
    · intro d hd
      exact List.mem_takeWhile_imp hd
    · intro hpre
      exact hslashes (hpre.trans (List.takeWhile_prefix _))

/-- A text is read up to a last gap or up to a literal that is stopped. -/
theorem exists_reads (pos : Nat) (cs : List Char) :
    ∃ ls stop, (∃ gap, Reads pos cs ls stop gap ∧ Gap [] gap) ∨
      ∃ gap body rest, Reads pos cs ls stop (gap ++ '"' :: (body ++ rest)) ∧
        Gap ('"' :: (body ++ rest)) gap ∧ LiteralItems body ∧ Stuck rest := by
  induction hn : cs.length using Nat.strongRecOn generalizing pos cs with
  | _ n ih =>
    subst hn
    obtain ⟨gap, tail, rfl, hgap, hslashes, hblank⟩ := exists_gap cs
    by_cases hne : tail = []
    · subst hne
      exact ⟨[], pos, .inl ⟨gap, by simpa using Reads.start, hgap⟩⟩
    obtain ⟨text, rest, rfl, htext⟩ | ⟨body, rest, rfl, hbody, hstuck⟩ :=
      exists_tokenText hne hslashes hblank
    · have hshorter : rest.length < (gap ++ (text ++ rest)).length := by
        have hlength := List.length_pos_iff.mpr htext.ne_nil
        simp only [List.length_append]
        omega
      obtain ⟨ls, stop, hreads⟩ :=
        ih _ hshorter (pos + byteLength gap + byteLength text) rest rfl
      refine ⟨⟨pos + byteLength gap, text⟩ :: ls, stop, ?_⟩
      obtain ⟨last, hreads, hlast⟩ | ⟨gap', body, tail, hreads, hend⟩ := hreads
      · exact .inl ⟨last, .token hgap htext hreads, hlast⟩
      · exact .inr ⟨gap', body, tail, .token hgap htext hreads, hend⟩
    · exact ⟨[], pos, .inr ⟨gap, body, rest, .start, hgap, hbody, hstuck⟩⟩

/-- The lexemes of a text are the token texts that are read, and a literal that is stopped. -/
theorem exists_reads_lexemes (cs : List Char) :
    ∃ ls stop, (∃ gap, Reads 0 cs ls stop gap ∧ Gap [] gap ∧ lexemes cs = ls) ∨
      ∃ gap body rest, Reads 0 cs ls stop (gap ++ '"' :: (body ++ rest)) ∧
        Gap ('"' :: (body ++ rest)) gap ∧ LiteralItems body ∧ Stuck rest ∧
        lexemes cs = ls ++ [⟨stop + byteLength gap, '"' :: body⟩] := by
  obtain ⟨ls, stop, hreads⟩ := exists_reads 0 cs
  refine ⟨ls, stop, ?_⟩
  obtain ⟨gap, hreads, hgap⟩ | ⟨gap, body, rest, hreads, hgap, hbody, hstuck⟩ := hreads
  · exact .inl ⟨gap, hreads, hgap, hreads.lexemes_eq hgap⟩
  · refine .inr ⟨gap, body, rest, hreads, hgap, hbody, hstuck, ?_⟩
    rw [lexemes_eq_splitFrom, hreads.split, hgap.split, split_stuck hbody hstuck]
    rfl

/-! ## Pieces of a text -/

def Lexeme.IsPiece (cs : List Char) (l : Lexeme) : Prop :=
  ∃ before after, cs = before ++ (l.text ++ after) ∧ l.start = byteLength before

theorem Lexeme.stop_eq (l : Lexeme) : l.stop = l.start + byteLength l.text := rfl

theorem byteLength_pos {cs : List Char} (hne : cs ≠ []) : 0 < byteLength cs := by
  obtain ⟨c, cs, rfl⟩ := List.exists_cons_of_ne_nil hne
  exact Nat.add_pos_left c.utf8Size_pos _

namespace Reads

variable {pos stop : Nat} {cs rest : List Char} {ls : List Lexeme}

theorem rest_eq (h : Reads pos cs ls stop rest) :
    ∃ before, cs = before ++ rest ∧ stop = pos + byteLength before := by
  induction h with
  | start => exact ⟨[], rfl, rfl⟩
  | @token pos stop gap text cs rest ls _ _ _ ih =>
    obtain ⟨before, rfl, rfl⟩ := ih
    exact ⟨gap ++ (text ++ before), by simp, by simp [Nat.add_assoc]⟩

/-- Each token text stands where its lexeme says, with the text behind it. -/
theorem piece_of_mem (h : Reads pos cs ls stop rest) :
    ∀ l ∈ ls, ∃ before after, cs = before ++ (l.text ++ after) ∧
      l.start = pos + byteLength before ∧ TokenText after l.text := by
  induction h with
  | start => simp
  | @token pos stop gap text cs rest ls _ htext _ ih =>
    intro l hl
    rcases List.mem_cons.mp hl with rfl | hl
    · exact ⟨gap, cs, rfl, rfl, htext⟩
    · obtain ⟨before, after, rfl, hstart, hafter⟩ := ih l hl
      refine ⟨gap ++ (text ++ before), after, by simp, ?_, hafter⟩
      rw [hstart, byteLength_append, byteLength_append]
      omega

/-- Token texts are not empty. -/
theorem start_lt_stop (h : Reads pos cs ls stop rest) : ∀ l ∈ ls, l.start < l.stop := by
  intro l hl
  obtain ⟨_, _, _, _, htext⟩ := h.piece_of_mem l hl
  exact Nat.lt_add_of_pos_right (byteLength_pos htext.ne_nil)

/-- Token texts stand one behind the other. -/
theorem pairwise (h : Reads pos cs ls stop rest) : ls.Pairwise (·.stop ≤ ·.start) := by
  induction h with
  | start => exact .nil
  | token _ _ h ih =>
    refine List.pairwise_cons.mpr ⟨fun l hl => ?_, ih⟩
    obtain ⟨_, _, _, hstart, _⟩ := h.piece_of_mem l hl
    rw [hstart]
    exact Nat.le_add_right _ _

end Reads

theorem isPiece_of_mem_lexemes {cs : List Char} {l : Lexeme} (h : l ∈ lexemes cs) :
    l.IsPiece cs := by
  have hread {ls : List Lexeme} {stop : Nat} {rest : List Char} (hreads : Reads 0 cs ls stop rest)
      (hl : l ∈ ls) : l.IsPiece cs := by
    obtain ⟨before, after, hcs, hstart, _⟩ := hreads.piece_of_mem l hl
    exact ⟨before, after, hcs, hstart.trans (Nat.zero_add _)⟩
  obtain ⟨ls, stop, ⟨gap, hreads, _, heq⟩ | ⟨gap, body, rest, hreads, _, _, _, heq⟩⟩ :=
    exists_reads_lexemes cs
  · exact hread hreads (heq ▸ h)
  · rcases List.mem_append.mp (heq ▸ h) with hl | hl
    · exact hread hreads hl
    · obtain ⟨before, hcs, hstop⟩ := hreads.rest_eq
      obtain rfl := List.mem_singleton.mp hl
      exact ⟨before ++ gap, rest, by simpa using hcs, by simp [hstop]⟩

/-! ## Longest matches -/

/-- The items of a literal end at its first quote. -/
theorem LiteralItems.eq_of_isPrefix {body body' rest : List Char} (h : LiteralItems body)
    (h' : LiteralItems body') (hpre : body' ++ ['"'] <+: body ++ '"' :: rest) :
    body' = body := by
  induction h generalizing body' with
  | nil =>
    cases h' with
    | nil => rfl
    | char hquote => simp [hquote] at hpre
    | escape => simp at hpre
  | @char c cs hquote hescape _ ih =>
    cases h' with
    | nil => simp [Ne.symm hquote] at hpre
    | @char c' cs' _ _ h' =>
      obtain ⟨rfl, htail⟩ := List.cons_prefix_cons.mp hpre
      rw [ih h' htail]
    | escape => simp [Ne.symm hescape] at hpre
  | @escape c cs _ _ ih =>
    cases h' with
    | nil => simp at hpre
    | char _ hescape => simp [hescape] at hpre
    | @escape c' cs' _ h' =>
      obtain ⟨rfl, htail⟩ := List.cons_prefix_cons.mp (List.cons_prefix_cons.mp hpre).2
      rw [ih h' htail]

/-- A run does not go on behind a character that is none of a run. -/
theorem length_le_of_run {text rest longer : List Char}
    (hlast : ∀ c, rest.head? = some c → isRunChar c = false) (hrun : ∀ c ∈ longer, isRunChar c)
    (hpre : longer <+: text ++ rest) : longer.length ≤ text.length := by
  by_contra hlonger
  obtain ⟨more, rfl⟩ : text <+: longer :=
    List.prefix_of_prefix_length_le (List.prefix_append _ _) hpre (by omega)
  obtain ⟨c, more, rfl⟩ : ∃ c cs, more = c :: cs := by
    apply List.exists_cons_of_ne_nil
    rintro rfl
    simp at hlonger
  obtain ⟨tail, htail⟩ := (List.prefix_append_right_inj text).mp hpre
  have hc := hlast c (by rw [← htail]; rfl)
  rw [hrun c (by simp)] at hc
  cases hc

/-- No pattern matches a longer piece where the text of a token stands. -/
theorem TokenText.longest {text rest longer : List Char} (h : TokenText rest text)
    (hpattern : Pattern longer) (hpre : longer <+: text ++ rest) :
    longer.length ≤ text.length := by
  have hhead {c d : Char} {cs ds : List Char} (hsame : c :: cs <+: d :: ds) : c = d :=
    (List.cons_prefix_cons.mp hsame).1
  cases h with
  | colon =>
    cases hpattern with
    | colon => exact Nat.le_refl 1
    | comment | literal => cases hhead hpre
    | blanks hne hblank | run hne hblank =>
      obtain ⟨c, cs, rfl⟩ := List.exists_cons_of_ne_nil hne
      obtain rfl := hhead hpre
      cases hblank ':' List.mem_cons_self
  | @literal body hbody =>
    cases hpattern with
    | comment | colon => cases hhead hpre
    | blanks hne hblank | run hne hblank =>
      obtain ⟨c, cs, rfl⟩ := List.exists_cons_of_ne_nil hne
      obtain rfl := hhead hpre
      cases hblank '"' List.mem_cons_self
    | @literal body' hbody' =>
      have hitems : body' ++ ['"'] <+: body ++ '"' :: rest := by simpa using hpre
      rw [hbody.eq_of_isPrefix hbody' hitems]
  | run hne hrun hlast hslashes =>
    obtain ⟨c, cs, rfl⟩ := List.exists_cons_of_ne_nil hne
    have hc : isRunChar c := hrun c List.mem_cons_self
    cases hpattern with
    | run _ hrun' => exact length_le_of_run hlast hrun' hpre
    | colon | literal =>
      obtain rfl := hhead hpre
      cases hc
    | blanks hne hblank =>
      obtain ⟨d, ds, rfl⟩ := List.exists_cons_of_ne_nil hne
      obtain rfl := hhead hpre
      simp [isRunChar, hblank d List.mem_cons_self] at hc
    | @comment body _ =>
      -- The first two slashes are a run, so they belong to the text.
      have htwo : ['/', '/'] <+: c :: cs ++ rest := by
        apply List.IsPrefix.trans _ hpre
        simp
      have hslash : ∀ c ∈ ['/', '/'], isRunChar c := by
        intro c hc
        obtain rfl : c = '/' := by simpa using hc
        decide
      have hfits := length_le_of_run hlast hslash htwo
      exact absurd (List.prefix_of_prefix_length_le htwo (List.prefix_append _ _) hfits) hslashes

end StackEffect
