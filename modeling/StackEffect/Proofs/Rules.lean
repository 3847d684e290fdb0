import StackEffect.Proofs.Tokens
import StackEffect.Token.Rule

/-! # The longest match of the rules

A text is scanned by the table of rules: at each place the rule with the longest match takes its
piece, which is left out or becomes a token, and the priorities decide between rules that match the
same piece. Where no rule matches, an unterminated string literal is the last piece. The lexemes of
a text are exactly the pieces found in this way, and what a lexeme spells is what the rule that took
it makes of it. So a comment is no word, however it is spaced, and a reserved word or a number is
one only as a part of a longer word.
-/

namespace StackEffect

/-- The rule for the first piece of a text: no rule matches a longer piece, and any other that
matches this one has a lower priority. -/
structure Rule.IsBest (rule : Rule) (cs text : List Char) : Prop where
  fits : rule.regex.Matches text
  start : text <+: cs
  longest : ∀ (other : Rule) (longer : List Char), other.regex.Matches longer → longer <+: cs →
    longer.length ≤ text.length
  first : ∀ other : Rule, other.regex.Matches text → other ≠ rule → other.priority < rule.priority

/-- The lexemes that the rules find in a text at offset `pos`. -/
inductive Scans : Nat → List Char → List Lexeme → Prop
  | done {pos : Nat} : Scans pos [] []
  | skip {pos : Nat} {rule : Rule} {text rest : List Char} {ls : List Lexeme}
      (hbest : rule.IsBest (text ++ rest) text) (hskip : rule.isSkipped)
      (h : Scans (pos + byteLength text) rest ls) : Scans pos (text ++ rest) ls
  | token {pos : Nat} {rule : Rule} {text rest : List Char} {ls : List Lexeme}
      (hbest : rule.IsBest (text ++ rest) text) (htoken : rule.isSkipped = false)
      (h : Scans (pos + byteLength text) rest ls) : Scans pos (text ++ rest) (⟨pos, text⟩ :: ls)
  | stuck {pos : Nat} {body rest : List Char}
      (hnone : ∀ (rule : Rule) (text : List Char), rule.regex.Matches text →
        ¬ text <+: '"' :: (body ++ rest))
      (hbody : LiteralItems body) (hstuck : Stuck rest) :
      Scans pos ('"' :: (body ++ rest)) [⟨pos, '"' :: body⟩]

/-! ## What the expressions match -/

namespace Regex

variable {a b : Regex} {p : Char → Bool} {cs text : List Char}

theorem matches_empty_iff : empty.Matches cs ↔ cs = [] := by
  constructor
  · rintro ⟨⟩
    rfl
  · rintro rfl
    exact .empty

theorem matches_char_iff : (char p).Matches cs ↔ ∃ c, cs = [c] ∧ p c := by
  constructor
  · rintro ⟨h⟩
    exact ⟨_, rfl, ‹_›⟩
  · rintro ⟨c, rfl, h⟩
    exact .char h

theorem matches_seq_iff :
    (seq a b).Matches text ↔ ∃ cs ds, text = cs ++ ds ∧ a.Matches cs ∧ b.Matches ds := by
  constructor
  · rintro ⟨ha, hb⟩
    exact ⟨_, _, rfl, ‹_›, ‹_›⟩
  · rintro ⟨cs, ds, rfl, ha, hb⟩
    exact .seq ha hb

theorem matches_alt_iff : (alt a b).Matches cs ↔ a.Matches cs ∨ b.Matches cs := by
  constructor
  · intro h
    cases h with
    | left h => exact .inl h
    | right h => exact .inr h
  · rintro (h | h)
    · exact .left h
    · exact .right h

theorem matches_ofText_iff : (ofText text).Matches cs ↔ cs = text := by
  induction text generalizing cs with
  | nil => exact matches_empty_iff
  | cons c text ih => simp [ofText, matches_seq_iff, matches_char_iff, ih]

theorem matches_star_char_iff : (star (char p)).Matches cs ↔ ∀ c ∈ cs, p c := by
  constructor
  · intro h
    generalize ha : star (char p) = a at h
    induction h with
    | done => simp
    | more hfirst _ _ ih =>
      cases ha
      obtain ⟨c, rfl, hc⟩ := matches_char_iff.mp hfirst
      simpa [hc] using ih rfl
    | _ => cases ha
  · intro h
    induction cs with
    | nil => exact .done
    | cons c cs ih =>
      obtain ⟨hc, hcs⟩ := List.forall_mem_cons.mp h
      exact .more (.char hc) (ih hcs)

theorem matches_plus_char_iff : (plus (char p)).Matches cs ↔ cs ≠ [] ∧ ∀ c ∈ cs, p c := by
  rw [plus, matches_seq_iff]
  constructor
  · rintro ⟨_, ds, rfl, hfirst, hds⟩
    obtain ⟨c, rfl, hc⟩ := matches_char_iff.mp hfirst
    simpa [hc] using matches_star_char_iff.mp hds
  · rintro ⟨hne, h⟩
    obtain ⟨c, cs, rfl⟩ := List.exists_cons_of_ne_nil hne
    obtain ⟨hc, hcs⟩ := List.forall_mem_cons.mp h
    exact ⟨[c], cs, rfl, .char hc, matches_star_char_iff.mpr hcs⟩

end Regex

namespace Rule

open Regex

variable {rule other : Rule} {cs text rest : List Char}

theorem matches_blanks_iff : blanks.regex.Matches text ↔ text ≠ [] ∧ ∀ c ∈ text, isBlank c :=
  matches_plus_char_iff

theorem matches_word_iff : word.regex.Matches text ↔ text ≠ [] ∧ ∀ c ∈ text, isRunChar c :=
  matches_plus_char_iff

theorem matches_comment_iff :
    comment.regex.Matches text ↔ ∃ body, text = '/' :: '/' :: body ∧ '\n' ∉ body := by
  have hline (body : List Char) : (∀ c ∈ body, c ≠ '\n') ↔ '\n' ∉ body :=
    ⟨fun h hmem => h _ hmem rfl, fun h c hc heq => h (heq ▸ hc)⟩
  simp [regex, matches_seq_iff, matches_ofText_iff, matches_star_char_iff, ← hline]

theorem matches_hex_iff :
    hex.regex.Matches text ↔
      ∃ digits, text = '0' :: 'x' :: digits ∧ digits ≠ [] ∧
        ∀ c ∈ digits, Spelling.isHexDigit c := by
  simp [regex, matches_seq_iff, matches_ofText_iff, matches_plus_char_iff]

theorem matches_decimal_iff :
    decimal.regex.Matches text ↔
      ∃ digits, (text = digits ∨ text = '-' :: digits) ∧ digits ≠ [] ∧
        ∀ c ∈ digits, c.isDigit := by
  simp only [regex, maybe, matches_seq_iff, matches_alt_iff, matches_empty_iff, matches_ofText_iff,
    matches_plus_char_iff]
  constructor
  · rintro ⟨_, digits, rfl, rfl | rfl, hdigits⟩
    · exact ⟨digits, .inl rfl, hdigits⟩
    · exact ⟨digits, .inr rfl, hdigits⟩
  · rintro ⟨digits, rfl | rfl, hdigits⟩
    · exact ⟨[], _, rfl, .inl rfl, hdigits⟩
    · exact ⟨['-'], digits, rfl, .inr rfl, hdigits⟩

theorem matches_items_iff {body : List Char} :
    (star (alt (char fun c => !(c == '"' || c == '\\'))
      (seq (char (· == '\\')) (char (· != '\n'))))).Matches body ↔ LiteralItems body := by
  constructor
  · intro h
    generalize ha : star _ = a at h
    induction h with
    | done => exact .nil
    | more hitem _ _ ih =>
      cases ha
      obtain hplain | hescape := matches_alt_iff.mp hitem
      · obtain ⟨c, rfl, hc⟩ := matches_char_iff.mp hplain
        simp only [Bool.not_eq_true', Bool.or_eq_false_iff, beq_eq_false_iff_ne] at hc
        exact .char hc.1 hc.2 (ih rfl)
      · obtain ⟨_, _, rfl, hfirst, hsecond⟩ := matches_seq_iff.mp hescape
        obtain ⟨_, rfl, hslash⟩ := matches_char_iff.mp hfirst
        obtain ⟨c, rfl, hc⟩ := matches_char_iff.mp hsecond
        obtain rfl := beq_iff_eq.mp hslash
        exact .escape (bne_iff_ne.mp hc) (ih rfl)
    | _ => cases ha
  · intro h
    induction h with
    | nil => exact .done
    | @char c cs hquote hescape _ ih =>
      exact .more (.left (.char (by simp [hquote, hescape]))) ih
    | @escape c cs hline _ ih =>
      have hitem := Matches.seq (a := char (· == '\\')) (.char (beq_self_eq_true _))
        (.char (p := (· != '\n')) (bne_iff_ne.mpr hline))
      exact .more (.right hitem) ih

theorem matches_literal_iff :
    literal.regex.Matches text ↔ ∃ body, text = '"' :: (body ++ ['"']) ∧ LiteralItems body := by
  simp only [regex, matches_seq_iff (a := char _), matches_seq_iff (a := star _), matches_items_iff,
    matches_char_iff, beq_iff_eq]
  constructor
  · rintro ⟨_, _, rfl, ⟨_, rfl, rfl⟩, body, _, rfl, hbody, _, rfl, rfl⟩
    exact ⟨body, rfl, hbody⟩
  · rintro ⟨body, rfl, hbody⟩
    exact ⟨_, _, rfl, ⟨_, rfl, rfl⟩, body, _, rfl, hbody, _, rfl, rfl⟩

theorem matches_number_iff :
    hex.regex.Matches text ∨ decimal.regex.Matches text ↔ ∃ n, Writes text n := by
  constructor
  · rintro (h | h)
    · obtain ⟨digits, rfl, hne, hdigits⟩ := matches_hex_iff.mp h
      exact ⟨_, .hex hne fun c hc => (Spelling.isHexDigit_iff c).mp (hdigits c hc)⟩
    · obtain ⟨digits, htext, hne, hdigits⟩ := matches_decimal_iff.mp h
      have hrange := fun c hc => (Spelling.isDigit_iff c).mp (hdigits c hc)
      obtain rfl | rfl := htext
      · exact ⟨_, .natural hne hrange⟩
      · exact ⟨_, .negative hne hrange⟩
  · rintro ⟨n, h⟩
    cases h with
    | natural hne hdigits =>
      have hall := fun c hc => (Spelling.isDigit_iff c).mpr (hdigits c hc)
      exact .inr (matches_decimal_iff.mpr ⟨_, .inl rfl, hne, hall⟩)
    | negative hne hdigits =>
      have hall := fun c hc => (Spelling.isDigit_iff c).mpr (hdigits c hc)
      exact .inr (matches_decimal_iff.mpr ⟨_, .inr rfl, hne, hall⟩)
    | hex hne hdigits =>
      have hall := fun c hc => (Spelling.isHexDigit_iff c).mpr (hdigits c hc)
      exact .inl (matches_hex_iff.mpr ⟨_, rfl, hne, hall⟩)

/-! ## Which rules match the same text -/

theorem isRunChar_of_isHexDigit {c : Char} (h : Spelling.isHexDigit c) : isRunChar c := by
  by_contra hnot
  simp only [isRunChar, isBlank, Bool.not_eq_true', Bool.not_eq_false, Bool.or_eq_true,
    beq_iff_eq] at hnot
  obtain (((((rfl | rfl) | rfl) | rfl) | rfl) | rfl) | rfl := hnot <;> cases h

/-- Every rule for a token but those for colons and string literals matches words only. -/
theorem word_matches (h : rule.regex.Matches text) (hskip : rule.isSkipped = false)
    (hcolon : rule ≠ keyword .colon) (hliteral : rule ≠ literal) : word.regex.Matches text := by
  have hdigit {c : Char} (hc : c.isDigit) : isRunChar c :=
    isRunChar_of_isHexDigit (by simp [Spelling.isHexDigit, hc])
  rw [matches_word_iff]
  cases rule with
  | blanks | comment => cases hskip
  | keyword k =>
    obtain rfl := matches_ofText_iff.mp h
    rw [← List.all_eq_true]
    cases k with
    | colon => exact absurd rfl hcolon
    | _ => decide
  | truth b =>
    rw [← List.all_eq_true]
    cases b <;> obtain rfl := matches_ofText_iff.mp h <;> decide
  | null =>
    obtain rfl := matches_ofText_iff.mp h
    rw [← List.all_eq_true]
    decide
  | hex =>
    obtain ⟨digits, rfl, _, hdigits⟩ := matches_hex_iff.mp h
    refine ⟨by simp, List.forall_mem_cons.mpr ⟨by decide, List.forall_mem_cons.mpr ⟨by decide, ?_⟩⟩⟩
    exact fun c hc => isRunChar_of_isHexDigit (hdigits c hc)
  | decimal =>
    obtain ⟨digits, rfl | rfl, hne, hdigits⟩ := matches_decimal_iff.mp h
    · exact ⟨hne, fun c hc => hdigit (hdigits c hc)⟩
    · exact ⟨by simp, List.forall_mem_cons.mpr ⟨by decide, fun c hc => hdigit (hdigits c hc)⟩⟩
  | literal => exact absurd rfl hliteral
  | word => exact matches_word_iff.mp h

/-- The texts that some rule matches are the patterns of the language. -/
theorem exists_matches_iff : (∃ rule : Rule, rule.regex.Matches text) ↔ Pattern text := by
  constructor
  · rintro ⟨rule, h⟩
    cases rule with
    | blanks => exact .blanks (matches_blanks_iff.mp h).1 (matches_blanks_iff.mp h).2
    | comment =>
      obtain ⟨body, rfl, hbody⟩ := matches_comment_iff.mp h
      exact .comment hbody
    | literal =>
      obtain ⟨body, rfl, hbody⟩ := matches_literal_iff.mp h
      exact .literal hbody
    | keyword k =>
      by_cases hk : k = .colon
      · subst hk
        obtain rfl := matches_ofText_iff.mp h
        exact .colon
      · obtain ⟨hne, hrun⟩ := matches_word_iff.mp (word_matches h rfl (by simpa using hk) (by simp))
        exact .run hne hrun
    | _ =>
      obtain ⟨hne, hrun⟩ := matches_word_iff.mp (word_matches h rfl (by simp) (by simp))
      exact .run hne hrun
  · intro h
    cases h with
    | blanks hne hblank => exact ⟨.blanks, matches_blanks_iff.mpr ⟨hne, hblank⟩⟩
    | comment hbody => exact ⟨.comment, matches_comment_iff.mpr ⟨_, rfl, hbody⟩⟩
    | colon => exact ⟨.keyword .colon, matches_ofText_iff.mpr rfl⟩
    | literal hbody => exact ⟨.literal, matches_literal_iff.mpr ⟨_, rfl, hbody⟩⟩
    | run hne hrun => exact ⟨.word, matches_word_iff.mpr ⟨hne, hrun⟩⟩

/-- The only rule besides the one for words that can match a text. -/
def special (text : List Char) : Rule :=
  if text.head?.any isBlank then blanks
  else if ['/', '/'].isPrefixOf text then comment
  else if text.head? = some '"' then literal
  else if (Spelling.number? text).isSome then
    if ['0', 'x'].isPrefixOf text then hex else decimal
  else match Spelling.ofWord (String.ofList text) with
    | .keyword k => keyword k
    | .bool b => truth b
    | _ => null

theorem special_of_decimal (h : decimal.regex.Matches text) : special text = decimal := by
  obtain ⟨n, hn⟩ := matches_number_iff.mp (.inr h)
  have hsome := Spelling.number?_eq_some_iff.mpr hn
  obtain ⟨digits, htext, hne, hdigits⟩ := matches_decimal_iff.mp h
  have hmem (c : Char) (hc : c ∈ text) : c = '-' ∨ c.isDigit := by
    obtain rfl | rfl := htext
    · exact .inr (hdigits c hc)
    · exact (List.mem_cons.mp hc).imp_right (hdigits c)
  have hfront (c d : Char) (hd : ¬ (d = '-' ∨ d.isDigit)) : [c, d].isPrefixOf text = false := by
    rw [Bool.eq_false_iff]
    intro hpre
    exact hd (hmem d ((List.isPrefixOf_iff_prefix.mp hpre).subset (by simp)))
  have hhex := hfront '0' 'x' (by decide)
  have hslashes := hfront '/' '/' (by decide)
  have hblank : text.head?.any isBlank = false := by
    obtain ⟨hrun, hall⟩ := matches_word_iff.mp (word_matches h rfl (by simp) (by simp))
    obtain ⟨c, cs, rfl⟩ := List.exists_cons_of_ne_nil hrun
    have hc := hall c List.mem_cons_self
    simp only [isRunChar, Bool.not_eq_true', Bool.or_eq_false_iff] at hc
    simp [hc]
  simp [special, hblank, hslashes, hn.head?_ne, hsome, hhex]

theorem eq_special (h : rule.regex.Matches text) (hne : rule ≠ word) : rule = special text := by
  cases rule with
  | word => exact absurd rfl hne
  | blanks =>
    obtain ⟨hne, hblank⟩ := matches_blanks_iff.mp h
    obtain ⟨c, cs, rfl⟩ := List.exists_cons_of_ne_nil hne
    simp [special, hblank c List.mem_cons_self]
  | comment =>
    obtain ⟨body, rfl, -⟩ := matches_comment_iff.mp h
    rfl
  | literal =>
    obtain ⟨body, rfl, -⟩ := matches_literal_iff.mp h
    rfl
  | keyword k =>
    obtain rfl := matches_ofText_iff.mp h
    cases k <;> decide
  | truth b => cases b <;> obtain rfl := matches_ofText_iff.mp h <;> decide
  | null =>
    obtain rfl := matches_ofText_iff.mp h
    decide
  | hex =>
    obtain ⟨n, hn⟩ := matches_number_iff.mp (.inl h)
    have hsome := Spelling.number?_eq_some_iff.mpr hn
    obtain ⟨digits, rfl, -⟩ := matches_hex_iff.mp h
    have hblank : isBlank '0' = false := rfl
    simp [special, hblank, hsome]
  | decimal => exact (special_of_decimal h).symm

/-- Rules that match the same text are the same, or one of them is the rule for words. -/
theorem eq_of_matches (h : rule.regex.Matches text) (h' : other.regex.Matches text)
    (hne : rule ≠ word) (hne' : other ≠ word) : rule = other :=
  (eq_special h hne).trans (eq_special h' hne').symm

theorem one_lt_priority (hne : rule ≠ word) : 1 < rule.priority := by
  cases rule with
  | word => exact absurd rfl hne
  | keyword k => cases k <;> decide
  | truth b => cases b <;> decide
  | _ => decide

/-- Among the rules that match a text one has the highest priority. -/
theorem exists_first (h : rule.regex.Matches text) :
    ∃ best : Rule, best.regex.Matches text ∧
      ∀ other : Rule, other.regex.Matches text → other ≠ best → other.priority < best.priority := by
  by_cases hspecial : ∃ best : Rule, best.regex.Matches text ∧ best ≠ word
  · obtain ⟨best, hbest, hne⟩ := hspecial
    refine ⟨best, hbest, fun other hother hdiffer => ?_⟩
    by_cases hword : other = word
    · subst hword
      exact one_lt_priority hne
    · exact absurd (eq_of_matches hother hbest hword hne) hdiffer
  · push Not at hspecial
    obtain rfl := hspecial rule h
    exact ⟨word, h, fun other hother hdiffer => absurd (hspecial other hother) hdiffer⟩

/-! ## The best rule at a place -/

theorem ne_nil_of_matches (h : rule.regex.Matches text) : text ≠ [] := by
  cases exists_matches_iff.mp ⟨rule, h⟩ with
  | blanks hne | run hne => exact hne
  | _ => simp

/-- Where a rule matches there is a best one. -/
theorem exists_isBest (h : rule.regex.Matches text) (hpre : text <+: cs) :
    ∃ (best : Rule) (longest : List Char), best.IsBest cs longest := by
  classical
  have hfits (text : List Char) (hpre : text <+: cs) : cs.take text.length = text :=
    (List.prefix_iff_eq_take.mp hpre).symm
  -- The longest match has the greatest length at which some rule matches.
  let Fits (n : Nat) : Prop := ∃ rule : Rule, rule.regex.Matches (cs.take n)
  have hlongest : Fits (Nat.findGreatest Fits cs.length) :=
    Nat.findGreatest_spec (m := text.length) hpre.length_le ⟨rule, by rwa [hfits text hpre]⟩
  obtain ⟨taken, htaken⟩ := hlongest
  obtain ⟨best, hbest, hfirst⟩ := exists_first htaken
  refine ⟨best, _, hbest, List.take_prefix _ _, fun other longer hother hlonger => ?_, hfirst⟩
  rw [List.length_take, Nat.min_eq_left (Nat.findGreatest_le _)]
  exact Nat.le_findGreatest hlonger.length_le ⟨other, by rwa [hfits longer hlonger]⟩

/-- The rules decide what comes first in a text. -/
theorem IsBest.unique {text' : List Char} (h : rule.IsBest cs text) (h' : other.IsBest cs text') :
    rule = other ∧ text = text' := by
  have htext : text = text' :=
    (List.prefix_of_prefix_length_le h.start h'.start (h'.longest _ _ h.fits h.start)).eq_of_length
      (Nat.le_antisymm (h'.longest _ _ h.fits h.start) (h.longest _ _ h'.fits h'.start))
  subst htext
  refine ⟨?_, rfl⟩
  by_contra hne
  exact Nat.lt_asymm (h.first other h'.fits (Ne.symm hne)) (h'.first rule h.fits hne)

/-- A rule that is not left out wins only where no rule that is left out matches. -/
theorem IsBest.not_matches (h : rule.IsBest cs text) (htoken : rule.isSkipped = false)
    (hskip : other.isSkipped) : ¬ other.regex.Matches text := by
  intro hother
  have hword : other ≠ word := by
    rintro rfl
    cases hskip
  have hdiffer : other ≠ rule := by
    rintro rfl
    rw [hskip] at htoken
    cases htoken
  have hlower := h.first other hother hdiffer
  have hrule : rule = word := by
    by_contra hne
    exact hdiffer (eq_of_matches hother h.fits hword hne)
  subst hrule
  have hhigh := one_lt_priority hword
  exact absurd hlower (Nat.lt_asymm hhigh)

/-- No rule takes the next character too. -/
theorem IsBest.not_matches_more {c : Char} (h : rule.IsBest (text ++ rest) text)
    (hc : rest.head? = some c) : ¬ other.regex.Matches (text ++ [c]) := by
  intro hother
  obtain ⟨tail, rfl⟩ := List.head?_eq_some_iff.mp hc
  have hle := h.longest other _ hother (by simp)
  rw [List.length_append, List.length_singleton] at hle
  omega

theorem IsBest.gap (h : rule.IsBest (text ++ rest) text) (hskip : rule.isSkipped) :
    Gap rest text := by
  cases rule with
  | blanks =>
    have hblank := (matches_blanks_iff.mp h.fits).2
    clear h
    induction text with
    | nil => exact .nil
    | cons c cs ih =>
      obtain ⟨hc, hcs⟩ := List.forall_mem_cons.mp hblank
      exact .blank hc (ih hcs)
  | comment =>
    obtain ⟨body, rfl, hbody⟩ := matches_comment_iff.mp h.fits
    refine (List.append_nil body) ▸ .comment hbody (fun c hc => ?_) .nil
    by_contra hline
    have hmore : '\n' ∉ body ++ [c] := by simp [hbody, Ne.symm hline]
    exact h.not_matches_more hc (matches_comment_iff.mpr ⟨_, rfl, hmore⟩)
  | _ => cases hskip

theorem IsBest.tokenText (h : rule.IsBest (text ++ rest) text) (htoken : rule.isSkipped = false) :
    TokenText rest text := by
  cases exists_matches_iff.mp ⟨rule, h.fits⟩ with
  | blanks hne hblank =>
    exact absurd (matches_blanks_iff.mpr ⟨hne, hblank⟩) (h.not_matches htoken rfl)
  | comment hbody =>
    exact absurd (matches_comment_iff.mpr ⟨_, rfl, hbody⟩) (h.not_matches htoken rfl)
  | colon => exact .colon
  | literal hbody => exact .literal hbody
  | run hne hrun =>
    refine .run hne hrun (fun c hc => ?_) ?_
    · by_contra hmore
      have hall : ∀ d ∈ text ++ [c], isRunChar d := by
        simpa [or_imp, forall_and] using And.intro hrun hmore
      exact h.not_matches_more hc (matches_word_iff.mpr ⟨by simp, hall⟩)
    · rintro ⟨body, rfl⟩
      have hbody : '\n' ∉ body := by
        intro hmem
        cases hrun '\n' (List.mem_append_right _ hmem)
      exact h.not_matches htoken rfl (matches_comment_iff.mpr ⟨body, rfl, hbody⟩)

/-- Where no rule matches a literal is stopped before its closing quote. -/
theorem exists_isBest_or_stuck (hne : cs ≠ []) :
    (∃ (rule : Rule) (text rest : List Char), cs = text ++ rest ∧ rule.IsBest cs text) ∨
      ∃ body rest, cs = '"' :: (body ++ rest) ∧ LiteralItems body ∧ Stuck rest ∧
        ∀ (rule : Rule) (text : List Char), rule.regex.Matches text → ¬ text <+: cs := by
  by_cases hsome : ∃ (rule : Rule) (text : List Char), rule.regex.Matches text ∧ text <+: cs
  · obtain ⟨rule, text, h, hpre⟩ := hsome
    obtain ⟨best, longest, hbest⟩ := exists_isBest h hpre
    obtain ⟨rest, rfl⟩ := hbest.start
    exact .inl ⟨best, longest, rest, rfl, hbest⟩
  · push Not at hsome
    have hslashes : ¬ ['/', '/'] <+: cs :=
      hsome comment _ (matches_comment_iff.mpr ⟨[], rfl, by simp⟩)
    have hblank (c : Char) (hc : cs.head? = some c) : isBlank c = false := by
      obtain ⟨tail, rfl⟩ := List.head?_eq_some_iff.mp hc
      by_contra hc
      exact hsome blanks [c] (matches_blanks_iff.mpr (by simpa using hc)) (by simp)
    obtain ⟨text, rest, rfl, htext⟩ | ⟨body, rest, hcs, hbody, hstuck⟩ :=
      exists_tokenText hne hslashes hblank
    · obtain ⟨rule, h⟩ := exists_matches_iff.mpr htext.pattern
      exact absurd (List.prefix_append _ _) (hsome rule text h)
    · exact .inr ⟨body, rest, hcs, hbody, hstuck, hsome⟩

theorem IsBest.eq_word (h : word.IsBest cs text) (other : Rule)
    (hother : other.regex.Matches text) : other = word := by
  by_contra hne
  exact absurd (h.first other hother hne) (Nat.lt_asymm (one_lt_priority hne))

/-- What a lexeme spells is what the best rule makes of it. -/
theorem IsBest.kind?_eq (h : rule.IsBest cs text) (htoken : rule.isSkipped = false) :
    Spelling.kind? text = rule.token? text := by
  cases rule with
  | blanks | comment => cases htoken
  | keyword k =>
    obtain rfl := matches_ofText_iff.mp h.fits
    cases k <;> rfl
  | truth b => cases b <;> obtain rfl := matches_ofText_iff.mp h.fits <;> rfl
  | null =>
    obtain rfl := matches_ofText_iff.mp h.fits
    rfl
  | literal =>
    obtain ⟨body, rfl, -⟩ := matches_literal_iff.mp h.fits
    rfl
  | hex =>
    obtain ⟨digits, rfl, hne, hdigits⟩ := matches_hex_iff.mp h.fits
    exact Spelling.kind?_of_writes
      (.hex hne fun c hc => (Spelling.isHexDigit_iff c).mp (hdigits c hc))
  | decimal =>
    obtain ⟨digits, htext, hne, hdigits⟩ := matches_decimal_iff.mp h.fits
    have hrange := fun c hc => (Spelling.isDigit_iff c).mp (hdigits c hc)
    obtain rfl | rfl := htext
    · rw [Spelling.kind?_of_writes (.natural hne hrange), token?]
      rintro digits rfl
      exact absurd (hrange '-' List.mem_cons_self).1 (by decide)
    · exact Spelling.kind?_of_writes (.negative hne hrange)
  | word =>
    obtain ⟨hne, hrun⟩ := matches_word_iff.mp h.fits
    refine Spelling.kind?_eq_some_iff.mpr (.word ?_ ?_ fun n hn => ?_)
    · intro hquote
      cases hrun '"' (List.mem_of_mem_head? hquote)
    · rintro (⟨k, rfl⟩ | rfl | rfl | rfl)
      · cases h.eq_word (keyword k) (matches_ofText_iff.mpr rfl)
      · cases h.eq_word (truth true) (matches_ofText_iff.mpr rfl)
      · cases h.eq_word (truth false) (matches_ofText_iff.mpr rfl)
      · cases h.eq_word null (matches_ofText_iff.mpr rfl)
    · obtain hhex | hdecimal := matches_number_iff.mpr ⟨n, hn⟩
      · cases h.eq_word hex hhex
      · cases h.eq_word decimal hdecimal

end Rule

/-! ## Scanning -/

theorem Scans.split {pos : Nat} {cs : List Char} {ls done : List Lexeme} (h : Scans pos cs ls) :
    splitFrom done pos cs = done ++ ls := by
  induction h generalizing done with
  | done => simp [splitFrom, SplitState.finish]
  | skip hbest hskip _ ih => rw [(hbest.gap hskip).split, ih]
  | token hbest htoken _ ih => rw [(hbest.tokenText htoken).split, ih, List.append_assoc]; rfl
  | stuck _ hbody hstuck => exact split_stuck hbody hstuck

theorem exists_scans (pos : Nat) (cs : List Char) : ∃ ls, Scans pos cs ls := by
  induction hn : cs.length using Nat.strongRecOn generalizing pos cs with
  | _ n ih =>
    subst hn
    by_cases hne : cs = []
    · subst hne
      exact ⟨[], .done⟩
    obtain ⟨rule, text, rest, rfl, hbest⟩ | ⟨body, rest, rfl, hbody, hstuck, hnone⟩ :=
      Rule.exists_isBest_or_stuck hne
    · have hshorter : rest.length < (text ++ rest).length := by
        have hlength := List.length_pos_iff.mpr (Rule.ne_nil_of_matches hbest.fits)
        rw [List.length_append]
        omega
      obtain ⟨ls, hls⟩ := ih _ hshorter (pos + byteLength text) rest rfl
      cases htoken : rule.isSkipped with
      | true => exact ⟨ls, .skip hbest htoken hls⟩
      | false => exact ⟨_, .token hbest htoken hls⟩
    · exact ⟨_, .stuck hnone hbody hstuck⟩

/-- The lexemes of a text are exactly those that the rules find. -/
theorem lexemes_eq_iff_scans {cs : List Char} {ls : List Lexeme} :
    lexemes cs = ls ↔ Scans 0 cs ls := by
  constructor
  · rintro rfl
    obtain ⟨ls, hls⟩ := exists_scans 0 cs
    rwa [lexemes_eq_splitFrom, hls.split, List.nil_append]
  · intro h
    rw [lexemes_eq_splitFrom, h.split, List.nil_append]

end StackEffect
