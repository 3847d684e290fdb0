import StackEffect.Proofs.Relocation
import StackEffect.Proofs.Tokens

/-! # Texts put together at line ends

Where a line ends, nothing that comes before has an influence on how the text goes on. So two texts
with a newline between them have the tokens of the first and then those of the second, further down
by the bytes and the lines of the first. Words and string literals are numbered through both. Lines
are counted in 32-bit words: those of the second text are moved by addition of such words, which is
addition of numbers as long as a word can say the number of the last line.
-/

namespace StackEffect

def Location.below (as : String) (l : Location) : Location :=
  { l with
    line := UInt32.ofNat (as.toList.count '\n' + 1) + l.line
    span := ⟨as.utf8ByteSize + 1 + l.span.start, as.utf8ByteSize + 1 + l.span.stop⟩ }

namespace LineIndex

theorem le_of_mem_startsFrom {pos i : Nat} {cs : List Char} (h : i ∈ startsFrom pos cs) :
    i ≤ pos + byteLength cs := by
  induction cs generalizing pos with
  | nil => simp [startsFrom] at h
  | cons c cs ih =>
    by_cases hc : c = '\n'
    · subst hc
      have hsize : Char.utf8Size '\n' = 1 := rfl
      rw [startsFrom, if_pos rfl, List.mem_cons] at h
      rw [byteLength, hsize]
      rcases h with rfl | h
      · omega
      · have := ih h
        omega
    · rw [startsFrom, if_neg hc] at h
      have := ih h
      rw [byteLength]
      omega

theorem length_startsFrom (pos : Nat) (cs : List Char) :
    (startsFrom pos cs).length = cs.count '\n' := by
  induction cs generalizing pos with
  | nil => rfl
  | cons c cs ih =>
    by_cases hc : c = '\n'
    · subst hc
      rw [startsFrom, if_pos rfl, List.length_cons, ih, List.count_cons_self]
    · rw [startsFrom, if_neg hc, ih, List.count_cons_of_ne hc]

theorem startsFrom_add (offset pos : Nat) (cs : List Char) :
    startsFrom (offset + pos) cs = (startsFrom pos cs).map (offset + ·) := by
  induction cs generalizing pos with
  | nil => rfl
  | cons c cs ih =>
    by_cases hc : c = '\n'
    · simp only [startsFrom, if_pos hc, List.map_cons, Nat.add_assoc, ih]
    · simp only [startsFrom, if_neg hc, Nat.add_assoc, ih]

theorem starts_append_line (file as bs : String) :
    (ofSource file (as ++ "\n" ++ bs)).starts =
      (ofSource file as).starts ++
        (ofSource file bs).starts.map (as.utf8ByteSize + 1 + ·) := by
  have hbehind : startsFrom (byteLength as.toList) ('\n' :: bs.toList) =
      (0 :: startsFrom 0 bs.toList).map (as.utf8ByteSize + 1 + ·) := by
    rw [startsFrom, if_pos rfl, byteLength_toList, List.map_cons, ← startsFrom_add]
  simp only [ofSource, String.toList_append, List.append_assoc, startsFrom_append, Nat.zero_add,
    ← hbehind]
  rfl

/-- Places in a text move down when it is put below another one. -/
theorem locate_below (file as bs : String) (start stop : Nat) :
    (ofSource file (as ++ "\n" ++ bs)).locate
        ⟨as.utf8ByteSize + 1 + start, as.utf8ByteSize + 1 + stop⟩ =
      ((ofSource file bs).locate ⟨start, stop⟩).below as := by
  have habove : (ofSource file as).starts.filter (· ≤ as.utf8ByteSize + 1 + start) =
      (ofSource file as).starts := by
    rw [List.filter_eq_self]
    intro i hi
    rw [decide_eq_true_eq]
    rcases List.mem_cons.mp hi with rfl | hi
    · omega
    · have := le_of_mem_startsFrom hi
      rw [byteLength_toList] at this
      omega
  have hbelow : ((ofSource file bs).starts.map (as.utf8ByteSize + 1 + ·)).filter
        (· ≤ as.utf8ByteSize + 1 + start) =
      ((ofSource file bs).starts.filter (· ≤ start)).map (as.utf8ByteSize + 1 + ·) := by
    rw [List.filter_map]
    congr 1
    apply List.filter_congr
    intro i _
    simp
  -- The first line starts at zero, so some line of the second text has started.
  obtain ⟨first, more, hlines⟩ :
      ∃ first more, (ofSource file bs).starts.filter (· ≤ start) = first :: more := ⟨0, _, rfl⟩
  have hlast : ((ofSource file as).starts ++
        ((first :: more).map (as.utf8ByteSize + 1 + ·))).getLastD 0 =
      as.utf8ByteSize + 1 + (first :: more).getLastD 0 := by
    simp only [List.getLastD_eq_getLast?, List.getLast?_append, List.getLast?_map,
      List.getLast?_eq_some_getLast (List.cons_ne_nil first more), Option.map_some, Option.some_or,
      Option.getD_some]
  have hlength : (ofSource file as).starts.length = as.toList.count '\n' + 1 := by
    rw [ofSource, List.length_cons, length_startsFrom]
  simp only [locate_ofSource, Location.below, starts_append_line, List.filter_append, habove,
    hbelow, hlines, List.length_append, List.length_map, hlength, hlast, Nat.add_sub_add_left,
    UInt32.ofNat_add]

end LineIndex

namespace TokenStream

variable {file : String}

theorem token_below (file as bs : String) (l : Lexeme) :
    token (.ofSource file (as ++ "\n" ++ bs)) (l.shift (as.utf8ByteSize + 1)) =
      relocateBy (Location.below as) (Token.relocate (Location.below as))
        (token (.ofSource file bs) l) := by
  have hstop : (l.shift (as.utf8ByteSize + 1)).stop = as.utf8ByteSize + 1 + l.stop :=
    Nat.add_assoc _ _ _
  have hloc := LineIndex.locate_below file as bs l.start l.stop
  simp only [token, hstop]
  cases hkind : Spelling.kind? l.text with
  | some kind => simp [Lexeme.shift, hkind, hloc, Token.relocate]
  | none => simp [Lexeme.shift, hkind, hloc]

theorem mapM_token_below (file as bs : String) (ls : List Lexeme) :
    (ls.map (·.shift (as.utf8ByteSize + 1))).mapM (token (.ofSource file (as ++ "\n" ++ bs))) =
      relocateBy (Location.below as) (List.map (Token.relocate (Location.below as)))
        (ls.mapM (token (.ofSource file bs))) := by
  induction ls with
  | nil => rfl
  | cons l ls ih =>
    rw [List.map_cons, List.mapM_cons, List.mapM_cons, token_below, ih]
    cases token (.ofSource file bs) l with
    | error e => rfl
    | ok t =>
      cases ls.mapM (token (.ofSource file bs)) with
      | error e => rfl
      | ok ts => rfl

/-- The tokens of one text and then those of a text that stands below it. -/
def above (as : String) (s t : TokenStream) : TokenStream :=
  ⟨s.tokens ++ t.tokens.map (Token.relocate (Location.below as)), t.eof.below as⟩

/-- What a text gives behind the lines of an accepted one is what it gives alone, further down. -/
theorem ofSource_below {as : String} {s : TokenStream} (hs : ofSource file as = .ok s)
    (bs : String) :
    ofSource file (as ++ "\n" ++ bs) =
      relocateBy (Location.below as) (s.above as) (ofSource file bs) := by
  obtain ⟨tokens, htokens, h⟩ := bind_eq_ok hs
  cases h
  have htext : (as ++ "\n" ++ bs).toList = as.toList ++ '\n' :: bs.toList := by simp
  have hlexemes := lexemes_append_line bs.toList (kind?_of_mapM_token htokens)
  have hold := mapM_token_append_line file as bs
    fun l hl => Nat.le_of_lt (start_lt_of_mem_lexemes hl)
  have hsize : byteLength (as.toList ++ '\n' :: bs.toList) =
      as.utf8ByteSize + 1 + byteLength bs.toList := by
    rw [byteLength_append, byteLength_toList, Nat.add_assoc]
    rfl
  simp only [ofSource, htext, hlexemes, List.mapM_append, hold, htokens, ok_bind, hsize,
    LineIndex.locate_below, byteLength_toList as, mapM_token_below]
  cases (lexemes bs.toList).mapM (token (.ofSource file bs)) with
  | error e => rfl
  | ok ts => rfl

/-- The tokens of a text stay as they are when lines are added behind it. What is new, tokens, the
end of the text or a fault, stands in these lines. -/
theorem ofSource_append_line {as : String} {s : TokenStream} (h : ofSource file as = .ok s)
    (bs : String) :
    (∃ new eof, ofSource file (as ++ "\n" ++ bs) = .ok ⟨s.tokens ++ new, eof⟩ ∧
      (∀ t ∈ new, as.utf8ByteSize + 1 ≤ t.loc.span.start) ∧
      as.utf8ByteSize + 1 ≤ eof.span.start) ∨
    ∃ f, ofSource file (as ++ "\n" ++ bs) = .error f ∧
      as.utf8ByteSize + 1 ≤ f.loc.span.start := by
  rw [ofSource_below h bs]
  cases ofSource file bs with
  | error f => exact .inr ⟨_, rfl, Nat.le_add_right _ _⟩
  | ok t =>
    refine .inl ⟨_, _, rfl, fun u hu => ?_, Nat.le_add_right _ _⟩
    obtain ⟨t', _, rfl⟩ := List.mem_map.mp hu
    exact Nat.le_add_right _ _

end TokenStream

def TokenStream.outcomePlaces : Except Fault TokenStream → List Location
  | .ok s => s.eof :: s.tokens.map (·.loc)
  | .error f => [f.loc]

end StackEffect
