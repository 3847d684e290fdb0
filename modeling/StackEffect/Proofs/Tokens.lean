import Mathlib.Data.List.Forall2
import StackEffect.Proofs.Munch
import StackEffect.Proofs.Numbering

/-! # What token texts spell

The text of a token alone decides its kind: a reserved word, a literal, or a word. A text is
accepted exactly if it is read to its end and every token text spells a token. Otherwise there is a
first text that is rejected: an integer that does not fit in 64 bits, a string literal with an
unknown escape, or one that is not terminated.
-/

namespace StackEffect

/-- The number that a run writes: decimal digits behind an optional minus sign, or hexadecimal
digits behind `0x`. -/
inductive Writes : List Char → Int → Prop
  | natural {digits : List Char} (hne : digits ≠ []) (hdigits : ∀ c ∈ digits, '0' ≤ c ∧ c ≤ '9') :
      Writes digits (Spelling.ofDigits 10 digits)
  | negative {digits : List Char} (hne : digits ≠ [])
      (hdigits : ∀ c ∈ digits, '0' ≤ c ∧ c ≤ '9') :
      Writes ('-' :: digits) (-(Spelling.ofDigits 10 digits : Int))
  | hex {digits : List Char} (hne : digits ≠ [])
      (hdigits : ∀ c ∈ digits, ('0' ≤ c ∧ c ≤ '9') ∨ ('a' ≤ c ∧ c ≤ 'f') ∨ ('A' ≤ c ∧ c ≤ 'F')) :
      Writes ('0' :: 'x' :: digits) (Spelling.ofDigits 16 digits)

/-- The numbers that fit in 64 bits: from minus two to the 63rd power to one below that power. -/
def FitsWord (n : Int) : Prop :=
  -9223372036854775808 ≤ n ∧ n ≤ 9223372036854775807

instance (n : Int) : Decidable (FitsWord n) :=
  inferInstanceAs (Decidable (_ ∧ _))

inductive Unescapes : List Char → List Char → Prop
  | nil : Unescapes [] []
  | char {c : Char} {cs ds : List Char} (hquote : c ≠ '"') (hescape : c ≠ '\\')
      (h : Unescapes cs ds) : Unescapes (c :: cs) (c :: ds)
  | escape {c d : Char} {cs ds : List Char} (hescape : Spelling.escaped? c = some d)
      (h : Unescapes cs ds) : Unescapes ('\\' :: c :: cs) (d :: ds)

def IsReserved (text : List Char) : Prop :=
  (∃ k : Keyword, text = k.text.toList) ∨ text = "true".toList ∨ text = "false".toList ∨
    text = "null".toList

inductive Spells : List Char → TokenKind → Prop
  | keyword (k : Keyword) : Spells k.text.toList (.keyword k)
  | true : Spells "true".toList (.bool true)
  | false : Spells "false".toList (.bool false)
  | null : Spells "null".toList (.ptr 0)
  | int {text : List Char} {n : Int} (hn : Writes text n) (hfits : FitsWord n) :
      Spells text (.int (.ofInt n))
  | str {body cs : List Char} (hbody : Unescapes body cs) :
      Spells ('"' :: (body ++ ['"'])) (.str (String.ofList cs))
  | word {text : List Char} (hquote : text.head? ≠ some '"') (hreserved : ¬ IsReserved text)
      (hnumber : ∀ n, ¬ Writes text n) : Spells text (.word (String.ofList text))

/-- A text in front of `rest` at which reading stops. -/
inductive Rejected (rest : List Char) : List Char → Prop
  | overflow {text : List Char} {n : Int} (htext : TokenText rest text) (hn : Writes text n)
      (hfits : ¬ FitsWord n) : Rejected rest text
  | unknownEscape {before after : List Char} {c : Char} (hbefore : LiteralItems before)
      (hc : Spelling.escaped? c = none) (hline : c ≠ '\n') (hafter : LiteralItems after) :
      Rejected rest ('"' :: (before ++ '\\' :: c :: (after ++ ['"'])))
  | unterminated {body : List Char} (hbody : LiteralItems body) (hstuck : Stuck rest) :
      Rejected rest ('"' :: body)

/-! ## Numbers -/

namespace Spelling

theorem isDigit_iff (c : Char) : c.isDigit ↔ '0' ≤ c ∧ c ≤ '9' := by
  simp [Char.isDigit, Char.le_def]

theorem isHexDigit_iff (c : Char) :
    isHexDigit c ↔ ('0' ≤ c ∧ c ≤ '9') ∨ ('a' ≤ c ∧ c ≤ 'f') ∨ ('A' ≤ c ∧ c ≤ 'F') := by
  simp [isHexDigit, isDigit_iff, or_assoc]

theorem all_isDigit_iff (digits : List Char) :
    digits.all Char.isDigit ↔ ∀ c ∈ digits, '0' ≤ c ∧ c ≤ '9' := by
  simp only [List.all_eq_true, isDigit_iff]

theorem number?_eq_some_iff {text : List Char} {n : Int} :
    number? text = some n ↔ Writes text n := by
  constructor
  · intro h
    unfold number? at h
    split at h
    · split at h
      · rename_i digits hdigits
        cases h
        refine .hex hdigits.1 fun c hc => ?_
        exact (isHexDigit_iff c).mp (List.all_eq_true.mp hdigits.2 c hc)
      · cases h
    · split at h
      · rename_i digits hdigits
        cases h
        exact .negative hdigits.1 ((all_isDigit_iff _).mp hdigits.2)
      · cases h
    · split at h
      · rename_i hdigits
        cases h
        exact .natural hdigits.1 ((all_isDigit_iff _).mp hdigits.2)
      · cases h
  · intro h
    cases h with
    | natural hne hdigits =>
      have hall := (all_isDigit_iff text).mpr hdigits
      unfold number?
      split
      · exact absurd (hdigits 'x' (by simp)).2 (by decide)
      · exact absurd (hdigits '-' (by simp)).1 (by decide)
      · rw [if_pos ⟨hne, hall⟩]
    | @negative digits hne hdigits =>
      have hall := (all_isDigit_iff digits).mpr hdigits
      simp only [number?, if_pos (And.intro hne hall)]
    | @hex digits hne hdigits =>
      have hall : digits.all isHexDigit := by
        rw [List.all_eq_true]
        intro c hc
        exact (isHexDigit_iff c).mpr (hdigits c hc)
      simp only [number?, if_pos (And.intro hne hall)]

theorem int?_of_fits {n : Int} (h : FitsWord n) : int? n = some (.int (.ofInt n)) := by
  have hbounds : Int64.minValue.toInt ≤ n ∧ n ≤ Int64.maxValue.toInt := h
  rw [int?, if_pos hbounds]

theorem int?_of_not_fits {n : Int} (h : ¬ FitsWord n) : int? n = none := by
  have hbounds : ¬ (Int64.minValue.toInt ≤ n ∧ n ≤ Int64.maxValue.toInt) := h
  rw [int?, if_neg hbounds]

/-! ## String literals -/

theorem contents?_of_unescapes {body cs : List Char} (h : Unescapes body cs) :
    contents? (body ++ ['"']) = some cs := by
  induction h with
  | nil => rfl
  | @char c cs ds hquote hescape _ ih =>
    rw [List.cons_append, contents?, ih]
    · rfl
    · exact hquote
    · exact fun heq _ => hescape heq
    · exact fun _ _ heq _ => hescape heq
  | escape hescape _ ih => simp [contents?, hescape, ih]

theorem exists_unescapes {text cs : List Char} (h : contents? text = some cs) :
    ∃ body, text = body ++ ['"'] ∧ Unescapes body cs := by
  fun_induction contents? text generalizing cs with
  | case2 rest hempty =>
    cases h
    exact ⟨[], by simpa using hempty, .nil⟩
  | case5 c rest d ds hds hd ih =>
    cases h
    obtain ⟨body, rfl, hbody⟩ := ih hds
    exact ⟨'\\' :: c :: body, rfl, .escape hd hbody⟩
  | case7 c rest hquote hlast hescape ih =>
    obtain ⟨ds, hds, rfl⟩ := Option.map_eq_some_iff.mp h
    obtain ⟨body, rfl, hbody⟩ := ih hds
    refine ⟨c :: body, rfl, .char hquote (fun heq => ?_) hbody⟩
    cases body with
    | nil => exact hescape '"' [] heq rfl
    | cons d body => exact hescape d _ heq rfl
  | case1 | case3 | case4 | case6 => cases h

/-- The items of a literal stand for contents, or one of them is an unknown escape. -/
theorem unescapes_or_unknown {body : List Char} (h : LiteralItems body) :
    (∃ cs, Unescapes body cs) ∨ ∃ before c after, body = before ++ '\\' :: c :: after ∧
      LiteralItems before ∧ escaped? c = none ∧ c ≠ '\n' ∧ LiteralItems after := by
  induction h with
  | nil => exact .inl ⟨[], .nil⟩
  | @char c cs hquote hescape h ih =>
    obtain ⟨ds, hds⟩ | ⟨before, d, after, rfl, hbefore, hd⟩ := ih
    · exact .inl ⟨c :: ds, .char hquote hescape hds⟩
    · exact .inr ⟨c :: before, d, after, rfl, .char hquote hescape hbefore, hd⟩
  | @escape c cs hline h ih =>
    cases hc : escaped? c with
    | none => exact .inr ⟨[], c, cs, rfl, .nil, hc, hline, h⟩
    | some e =>
      obtain ⟨ds, hds⟩ | ⟨before, d, after, rfl, hbefore, hd⟩ := ih
      · exact .inl ⟨e :: ds, .escape hc hds⟩
      · exact .inr ⟨'\\' :: c :: before, d, after, rfl, .escape hline hbefore, hd⟩

/-- Behind complete items an unknown escape spoils the literal. -/
theorem contents?_of_unknown {before after : List Char} {c : Char} (hbefore : LiteralItems before)
    (hc : escaped? c = none) : contents? (before ++ '\\' :: c :: after) = none := by
  induction hbefore with
  | nil => simp [contents?, hc]
  | @char d cs hquote hescape _ ih =>
    rw [List.cons_append, contents?, ih]
    · rfl
    · exact hquote
    · exact fun heq _ => hescape heq
    · exact fun _ _ heq _ => hescape heq
  | escape _ _ ih => simp [contents?, ih]

/-! ## Kinds -/

theorem ofText?_text (k : Keyword) : Keyword.ofText? k.text = some k := by
  cases k <;> rfl

theorem text_of_ofText? {text : String} {k : Keyword} (h : Keyword.ofText? text = some k) :
    k.text = text := by
  simpa using List.find?_some h

theorem kind?_quote (body : List Char) :
    kind? ('"' :: body) = (contents? body).map fun cs => .str (String.ofList cs) := rfl

/-- A text without an opening quote is a number or a run of letters. -/
theorem kind?_of_head?_ne {text : List Char} (h : text.head? ≠ some '"') :
    kind? text = (number? text).elim (some (ofWord (String.ofList text))) int? := by
  unfold kind?
  split
  · simp at h
  · cases number? text <;> rfl

theorem ofWord_of_not_reserved {text : List Char} (h : ¬ IsReserved text) :
    ofWord (String.ofList text) = .word (String.ofList text) := by
  have hne {w : String} (hw : text ≠ w.toList) : String.ofList text ≠ w := by
    intro heq
    rw [← heq, String.toList_ofList] at hw
    exact hw rfl
  have hkeyword : Keyword.ofText? (String.ofList text) = none := by
    rw [Option.eq_none_iff_forall_ne_some]
    intro k hk
    exact hne (fun heq => h (.inl ⟨k, heq⟩)) (text_of_ofText? hk).symm
  have htrue := hne fun heq => h (.inr (.inl heq))
  have hfalse := hne fun heq => h (.inr (.inr (.inl heq)))
  have hnull := hne fun heq => h (.inr (.inr (.inr heq)))
  rw [ofWord, hkeyword]
  exact (if_neg htrue).trans ((if_neg hfalse).trans (if_neg hnull))

theorem spells_ofWord {text : List Char} (hquote : text.head? ≠ some '"')
    (hnumber : ∀ n, ¬ Writes text n) : Spells text (ofWord (String.ofList text)) := by
  by_cases hreserved : IsReserved text
  · obtain ⟨k, rfl⟩ | rfl | rfl | rfl := hreserved
    · rw [String.ofList_toList, ofWord, ofText?_text]
      exact .keyword k
    · exact .true
    · exact .false
    · exact .null
  · rw [ofWord_of_not_reserved hreserved]
    exact .word hquote hreserved hnumber

end Spelling

theorem Writes.head?_ne {text : List Char} {n : Int} (h : Writes text n) :
    text.head? ≠ some '"' := by
  cases h with
  | natural hne hdigits =>
    intro hhead
    have hmem := List.mem_of_mem_head? hhead
    exact absurd (hdigits _ hmem).1 (by decide)
  | negative | hex => simp

theorem Spelling.kind?_of_writes {text : List Char} {n : Int} (h : Writes text n) :
    kind? text = int? n := by
  rw [kind?_of_head?_ne h.head?_ne, number?_eq_some_iff.mpr h, Option.elim_some]

/-- The text of a token alone decides its kind. -/
theorem Spelling.kind?_eq_some_iff {text : List Char} {kind : TokenKind} :
    kind? text = some kind ↔ Spells text kind := by
  constructor
  · intro h
    by_cases hquote : text.head? = some '"'
    · obtain ⟨body, rfl⟩ := List.head?_eq_some_iff.mp hquote
      obtain ⟨cs, hcs, rfl⟩ := Option.map_eq_some_iff.mp (kind?_quote body ▸ h)
      obtain ⟨items, rfl, hitems⟩ := exists_unescapes hcs
      exact .str hitems
    rw [kind?_of_head?_ne hquote] at h
    cases hnumber : number? text with
    | none =>
      rw [hnumber] at h
      cases h
      refine spells_ofWord hquote fun n hn => ?_
      rw [number?_eq_some_iff.mpr hn] at hnumber
      cases hnumber
    | some n =>
      rw [hnumber, Option.elim_some] at h
      by_cases hfits : FitsWord n
      · rw [int?_of_fits hfits] at h
        cases h
        exact .int (number?_eq_some_iff.mp hnumber) hfits
      · rw [int?_of_not_fits hfits] at h
        cases h
  · intro h
    cases h with
    | keyword k => cases k <;> rfl
    | true | false | null => rfl
    | int hn hfits =>
      rw [kind?_of_writes hn]
      exact int?_of_fits hfits
    | str hbody => rw [kind?_quote, contents?_of_unescapes hbody, Option.map_some]
    | word hquote hreserved hnumber =>
      have hnone : number? text = none := by
        rw [Option.eq_none_iff_forall_ne_some]
        exact fun n hn => hnumber n (number?_eq_some_iff.mp hn)
      rw [kind?_of_head?_ne hquote, hnone, Option.elim_none, ofWord_of_not_reserved hreserved]

/-! ## Rejected texts -/

theorem LiteralItems.append {as bs : List Char} (has : LiteralItems as) (hbs : LiteralItems bs) :
    LiteralItems (as ++ bs) := by
  induction has with
  | nil => exact hbs
  | char hquote hescape _ ih => exact .char hquote hescape ih
  | escape hline _ ih => exact .escape hline ih

theorem LiteralItems.unclosed {cs : List Char} (h : LiteralItems cs) : Unclosed cs := by
  induction h with
  | nil => exact .nil
  | char hquote hescape _ ih => exact .char hquote hescape ih
  | escape _ _ ih => exact .escape ih

section Rejection

variable {rest text : List Char} {done : List Lexeme} {pos : Nat}

theorem Rejected.kind?_eq_none (h : Rejected rest text) : Spelling.kind? text = none := by
  cases h with
  | overflow _ hn hfits =>
    rw [Spelling.kind?_of_writes hn]
    exact Spelling.int?_of_not_fits hfits
  | unknownEscape hbefore hc =>
    rw [Spelling.kind?_quote, Spelling.contents?_of_unknown hbefore hc, Option.map_none]
  | unterminated hbody =>
    rw [Spelling.kind?_quote, hbody.unclosed.contents?_eq_none, Option.map_none]

/-- A token text that spells no token is a number out of range or a literal with an unknown
escape. -/
theorem TokenText.rejected (h : TokenText rest text) (hnone : Spelling.kind? text = none) :
    Rejected rest text := by
  have hspells (kind : TokenKind) (hk : Spells text kind) : False := by
    rw [Spelling.kind?_eq_some_iff.mpr hk] at hnone
    cases hnone
  cases h with
  | colon => exact (hspells _ (.keyword .colon)).elim
  | literal hbody =>
    obtain ⟨cs, hcs⟩ | ⟨before, c, after, rfl, hbefore, hc, hline, hafter⟩ :=
      Spelling.unescapes_or_unknown hbody
    · exact (hspells _ (.str hcs)).elim
    · rw [List.append_assoc]
      exact .unknownEscape hbefore hc hline hafter
  | run hne hrun hlast hslashes =>
    have hquote : text.head? ≠ some '"' := by
      intro hhead
      exact absurd (hrun _ (List.mem_of_mem_head? hhead)) (by decide)
    by_cases hnumber : ∃ n, Writes text n
    · obtain ⟨n, hn⟩ := hnumber
      exact .overflow (.run hne hrun hlast hslashes) hn fun hfits => hspells _ (.int hn hfits)
    · exact (hspells _ (Spelling.spells_ofWord hquote (not_exists.mp hnumber))).elim

theorem splitFrom_eq_append (done : List Lexeme) (pos : Nat) (cs : List Char) :
    splitFrom done pos cs = done ++ (lexemes cs).map (·.shift pos) := by
  have hstart : (⟨done, pos, .gap⟩ : SplitState) = SplitState.behind done pos {} := by
    simp [SplitState.behind, SplitMode.shift]
  rw [splitFrom, hstart, SplitState.foldl_behind, SplitState.finish_behind]
  rfl

/-- A rejected text is the next lexeme. -/
theorem Rejected.split (h : Rejected rest text) :
    ∃ more, splitFrom done pos (text ++ rest) = done ++ ⟨pos, text⟩ :: more := by
  have hcomplete (htext : TokenText rest text) :
      ∃ more, splitFrom done pos (text ++ rest) = done ++ ⟨pos, text⟩ :: more := by
    refine ⟨(lexemes rest).map (·.shift (pos + byteLength text)), ?_⟩
    rw [htext.split, splitFrom_eq_append, List.append_assoc]
    rfl
  cases h with
  | overflow htext _ _ => exact hcomplete htext
  | @unknownEscape before after c hbefore _ hline hafter =>
    have hitems : LiteralItems (before ++ '\\' :: c :: after) :=
      hbefore.append (.escape hline hafter)
    have htext : TokenText rest ('"' :: (before ++ '\\' :: c :: after ++ ['"'])) :=
      .literal hitems
    rw [List.append_assoc] at htext
    exact hcomplete htext
  | unterminated hbody hstuck => exact ⟨[], split_stuck hbody hstuck⟩

end Rejection

/-- Reading a text stops at a lexeme: it is rejected, and every token text before it spells a
token. -/
def StopsAt (cs : List Char) (l : Lexeme) : Prop :=
  ∃ ls stop gap rest, Reads 0 cs ls stop (gap ++ (l.text ++ rest)) ∧ Gap (l.text ++ rest) gap ∧
    l.start = stop + byteLength gap ∧ (∀ l' ∈ ls, ∃ kind, Spells l'.text kind) ∧
    Rejected rest l.text

/-- Whatever has been read can be cut before each of its token texts. -/
theorem Reads.cut {pos stop : Nat} {cs rest : List Char} {before after : List Lexeme} {l : Lexeme}
    (h : Reads pos cs (before ++ l :: after) stop rest) :
    ∃ stop' gap rest', Reads pos cs before stop' (gap ++ (l.text ++ rest')) ∧
      Gap (l.text ++ rest') gap ∧ l.start = stop' + byteLength gap ∧ TokenText rest' l.text := by
  induction before generalizing pos cs with
  | nil =>
    cases h with
    | @token _ _ gap text cs _ _ hgap htext _ => exact ⟨pos, gap, cs, .start, hgap, rfl, htext⟩
  | cons l' before ih =>
    cases h with
    | token hgap htext h =>
      obtain ⟨stop', gap', rest', hreads, hcut⟩ := ih h
      exact ⟨stop', gap', rest', .token hgap htext hreads, hcut⟩

/-- Reading stops at the first lexeme that spells no token. -/
theorem stopsAt_iff {cs : List Char} {l : Lexeme} :
    StopsAt cs l ↔ ∃ before after, lexemes cs = before ++ l :: after ∧
      (∀ l' ∈ before, ∃ kind, Spells l'.text kind) ∧ Spelling.kind? l.text = none := by
  constructor
  · rintro ⟨ls, stop, gap, rest, hreads, hgap, hstart, hspells, hrejected⟩
    obtain ⟨more, hmore⟩ : ∃ more, splitFrom ls (stop + byteLength gap) (l.text ++ rest) =
        ls ++ ⟨stop + byteLength gap, l.text⟩ :: more := hrejected.split
    refine ⟨ls, more, ?_, hspells, hrejected.kind?_eq_none⟩
    rw [lexemes_eq_splitFrom, hreads.split, hgap.split, List.nil_append, hmore, ← hstart]
  · rintro ⟨before, after, hlexemes, hspells, hnone⟩
    have hcut {ls rest stop} (hreads : Reads 0 cs ls stop rest)
        (hls : ∃ after, ls = before ++ l :: after) : StopsAt cs l := by
      obtain ⟨after, rfl⟩ := hls
      obtain ⟨stop', gap, rest', hreads', hgap, hstart, htext⟩ := hreads.cut
      exact ⟨before, stop', gap, rest', hreads', hgap, hstart, hspells, htext.rejected hnone⟩
    obtain ⟨ls, stop, ⟨gap, hreads, _, heq⟩ |
        ⟨gap, body, rest, hreads, hgap, hbody, hstuck, heq⟩⟩ := exists_reads_lexemes cs
    · exact hcut hreads ⟨after, heq.symm.trans hlexemes⟩
    -- The last lexeme is the literal that is stopped; every other one has been read.
    have hstopped (hbefore : before = ls) (hl : l = ⟨stop + byteLength gap, '"' :: body⟩) :
        StopsAt cs l := by
      subst hbefore hl
      exact ⟨before, stop, gap, rest, hreads, hgap, rfl, hspells, .unterminated hbody hstuck⟩
    rw [heq] at hlexemes
    rcases List.append_eq_append_iff.mp hlexemes with ⟨more, hbefore, hlast⟩ | ⟨more, hls, hlast⟩
    · cases more with
      | nil =>
        rw [List.append_nil] at hbefore
        exact hstopped hbefore (List.cons.inj hlast).1.symm
      | cons l' more => simp at hlast
    · cases more with
      | nil =>
        rw [List.append_nil] at hls
        exact hstopped hls.symm (List.cons.inj hlast).1
      | cons l' more =>
        rw [← (List.cons.inj hlast).1] at hls
        exact hcut hreads ⟨more, hls⟩

/-! ## The tokens of a text -/

/-- A token stands for a lexeme: the text of the lexeme spells it, and it has its place. -/
structure Token.StandsFor (index : LineIndex) (t : Token) (l : Lexeme) : Prop where
  spells : Spells l.text t.kind
  loc : t.loc = index.locate ⟨l.start, l.stop⟩

namespace TokenStream

variable {index : LineIndex} {file source : String}

theorem token_eq_ok_iff {l : Lexeme} {t : Token} :
    token index l = .ok t ↔ t.StandsFor index l := by
  constructor
  · intro h
    refine ⟨Spelling.kind?_eq_some_iff.mp ?_, token_loc h⟩
    unfold token at h
    split at h
    · rename_i kind hkind
      cases h
      exact hkind
    · cases h
  · intro h
    simp only [token, Spelling.kind?_eq_some_iff.mpr h.spells, ← h.loc]

theorem token_eq_error_iff {l : Lexeme} {f : Fault} :
    token index l = .error f ↔ Spelling.kind? l.text = none ∧
      f = (Cause.unexpectedInput (String.ofList l.text)).fault
        (index.locate ⟨l.start, l.stop⟩) := by
  unfold token
  cases Spelling.kind? l.text with
  | some kind => simp
  | none => simp [eq_comm]

theorem mapM_token_eq_ok_iff {ls : List Lexeme} {ts : List Token} :
    ls.mapM (token index) = .ok ts ↔ List.Forall₂ (Token.StandsFor index) ts ls := by
  induction ls generalizing ts with
  | nil => simp [eq_comm]
  | cons l ls ih =>
    constructor
    · intro h
      obtain ⟨t, ts', ht, hts, rfl⟩ := mapM_cons_ok h
      exact .cons (token_eq_ok_iff.mp ht) (ih.mp hts)
    · intro h
      cases h with
      | cons ht hts =>
        rw [List.mapM_cons, token_eq_ok_iff.mpr ht, ih.mpr hts]
        rfl

theorem exists_token_eq_ok_iff {l : Lexeme} :
    (∃ t, token index l = .ok t) ↔ ∃ kind, Spells l.text kind := by
  constructor
  · rintro ⟨t, ht⟩
    exact ⟨t.kind, (token_eq_ok_iff.mp ht).spells⟩
  · rintro ⟨kind, hkind⟩
    exact ⟨⟨kind, index.locate ⟨l.start, l.stop⟩⟩, token_eq_ok_iff.mpr ⟨hkind, rfl⟩⟩

/-- The tokens of a stream stand for the token texts of a source text, which has been read to its
end. -/
structure Partitions (file source : String) (s : TokenStream) (ls : List Lexeme) : Prop where
  reads : ∃ stop gap, Reads 0 source.toList ls stop gap ∧ Gap [] gap
  tokens : List.Forall₂ (Token.StandsFor (.ofSource file source)) s.tokens ls
  eof : s.eof =
    (LineIndex.ofSource file source).locate ⟨source.utf8ByteSize, source.utf8ByteSize⟩

/-- A text whose lexemes all spell tokens has been read to its end. -/
theorem reads_of_spells {cs : List Char} (h : ∀ l ∈ lexemes cs, Spelling.kind? l.text ≠ none) :
    ∃ stop gap, Reads 0 cs (lexemes cs) stop gap ∧ Gap [] gap := by
  obtain ⟨ls, stop, ⟨gap, hreads, hgap, rfl⟩ | ⟨gap, body, rest, _, _, hbody, hstuck, heq⟩⟩ :=
    exists_reads_lexemes cs
  · exact ⟨stop, gap, hreads, hgap⟩
  · have hlast := Rejected.kind?_eq_none (.unterminated hbody hstuck)
    exact absurd hlast (h ⟨stop + byteLength gap, '"' :: body⟩ (by simp [heq]))

theorem ofSource_eq_ok_iff {s : TokenStream} :
    ofSource file source = .ok s ↔ ∃ ls, s.Partitions file source ls := by
  constructor
  · intro h
    obtain ⟨tokens, htokens, h⟩ := bind_eq_ok h
    cases h
    refine ⟨lexemes source.toList, reads_of_spells (kind?_of_mapM_token htokens),
      mapM_token_eq_ok_iff.mp htokens, ?_⟩
    rw [byteLength_toList]
  · rintro ⟨ls, ⟨stop, gap, hreads, hgap⟩, htokens, heof⟩
    rw [ofSource, hreads.lexemes_eq hgap, mapM_token_eq_ok_iff.mpr htokens, ok_bind,
      byteLength_toList, ← heof]
    rfl

theorem ofSource_eq_error_iff {f : Fault} :
    ofSource file source = .error f ↔ ∃ l, StopsAt source.toList l ∧
      f = (Cause.unexpectedInput (String.ofList l.text)).fault
        ((LineIndex.ofSource file source).locate ⟨l.start, l.stop⟩) := by
  have hmap : ofSource file source = .error f ↔
      (lexemes source.toList).mapM (token (.ofSource file source)) = .error f := by
    simp only [ofSource]
    cases (lexemes source.toList).mapM (token (.ofSource file source)) <;> simp
  rw [hmap, mapM_eq_error_iff]
  simp only [exists_token_eq_ok_iff, token_eq_error_iff, stopsAt_iff]
  constructor
  · rintro ⟨before, l, after, hlexemes, hspells, hnone, hf⟩
    exact ⟨l, ⟨before, after, hlexemes, hspells, hnone⟩, hf⟩
  · rintro ⟨l, ⟨before, after, hlexemes, hspells, hnone⟩, hf⟩
    exact ⟨before, l, after, hlexemes, hspells, hnone, hf⟩

variable {s : TokenStream} {ls : List Lexeme}

theorem Partitions.exists_lexeme (h : s.Partitions file source ls) {t : Token}
    (ht : t ∈ s.tokens) : ∃ l ∈ ls, t.StandsFor (.ofSource file source) l := by
  have htokens := h.tokens
  generalize s.tokens = ts at ht htokens
  clear h
  induction htokens with
  | nil => cases ht
  | @cons t' l ts ls hstands _ ih =>
    rcases List.mem_cons.mp ht with rfl | ht
    · exact ⟨l, List.mem_cons_self, hstands⟩
    · obtain ⟨l', hl', hstands'⟩ := ih ht
      exact ⟨l', List.mem_cons_of_mem l hl', hstands'⟩

theorem Partitions.map_span (h : s.Partitions file source ls) :
    s.tokens.map (·.loc.span) = ls.map fun l => ⟨l.start, l.stop⟩ := by
  rw [← List.forall₂_eq_eq_eq, List.forall₂_map_left_iff, List.forall₂_map_right_iff]
  apply h.tokens.imp
  intro t l hstands
  rw [hstands.loc, LineIndex.span_locate]

/-- A token covers some bytes. -/
theorem Partitions.start_lt_stop (h : s.Partitions file source ls) :
    ∀ t ∈ s.tokens, t.loc.span.start < t.loc.span.stop := by
  intro t ht
  obtain ⟨stop, gap, hreads, _⟩ := h.reads
  obtain ⟨l, hl, hstands⟩ := h.exists_lexeme ht
  rw [hstands.loc, LineIndex.span_locate]
  exact hreads.start_lt_stop l hl

/-- A token ends before the next one starts. -/
theorem Partitions.pairwise (h : s.Partitions file source ls) :
    s.tokens.Pairwise (·.loc.span.stop ≤ ·.loc.span.start) := by
  obtain ⟨stop, gap, hreads, _⟩ := h.reads
  have hspans : (s.tokens.map (·.loc.span)).Pairwise (·.stop ≤ ·.start) := by
    rw [h.map_span, List.pairwise_map]
    exact hreads.pairwise
  exact List.pairwise_map.mp hspans

/-- What stands at a token's place is a token text that spells it, and no pattern matches a longer
piece there. -/
theorem Partitions.exists_piece (h : s.Partitions file source ls) :
    ∀ t ∈ s.tokens, ∃ before text after, source.toList = before ++ (text ++ after) ∧
      t.loc.span = ⟨byteLength before, byteLength (before ++ text)⟩ ∧ Spells text t.kind ∧
      TokenText after text ∧
      ∀ longer, Pattern longer → longer <+: text ++ after → longer.length ≤ text.length := by
  intro t ht
  obtain ⟨stop, gap, hreads, _⟩ := h.reads
  obtain ⟨l, hl, hstands⟩ := h.exists_lexeme ht
  obtain ⟨before, after, hsource, hstart, htext⟩ := hreads.piece_of_mem l hl
  refine ⟨before, l.text, after, hsource, ?_, hstands.spells, htext,
    fun longer hpattern hpre => htext.longest hpattern hpre⟩
  rw [hstands.loc, LineIndex.span_locate, l.stop_eq, hstart, Nat.zero_add, byteLength_append]

/-- Words are numbered, and their numbers give back their texts. -/
theorem exists_get?_word (s : TokenStream) :
    ∀ t ∈ s.tokens, ∀ w, t.kind = .word w →
      ∃ id, s.words.get? w = some id ∧ s.words.text? id = some w := by
  intro t ht w hw
  have hmem : w ∈ s.tokens.filterMap (·.kind.word?) :=
    List.mem_filterMap.mpr ⟨t, ht, by rw [hw]; rfl⟩
  obtain ⟨id, hid⟩ := Lexicon.exists_get?_of_mem (Lexicon.mem_texts_ofList.mpr hmem)
  exact ⟨id, hid, Lexicon.text?_of_get? hid⟩

end TokenStream

/-- A text is accepted exactly if it can be read to its end and every token text spells a token. Its
tokens cover pieces that are not empty, in order and disjoint, and at each of them the longest match
of a pattern stands; words are numbered by their texts. A text spells one token at most. A text is
rejected exactly at the first token text, or literal that is stopped, that spells none. -/
theorem lexing_is_maximal_munch (file source : String) :
    (∀ s, TokenStream.ofSource file source = .ok s ↔
      ∃ ls, TokenStream.Partitions file source s ls) ∧
    (∀ s ls, TokenStream.Partitions file source s ls →
      (∀ t ∈ s.tokens, t.loc.span.start < t.loc.span.stop) ∧
      s.tokens.Pairwise (·.loc.span.stop ≤ ·.loc.span.start) ∧
      (∀ t ∈ s.tokens, ∃ before text after, source.toList = before ++ (text ++ after) ∧
        t.loc.span = ⟨byteLength before, byteLength (before ++ text)⟩ ∧ Spells text t.kind ∧
        TokenText after text ∧
        ∀ longer, Pattern longer → longer <+: text ++ after → longer.length ≤ text.length) ∧
      ∀ t ∈ s.tokens, ∀ w, t.kind = .word w →
        ∃ id, s.words.get? w = some id ∧ s.words.text? id = some w) ∧
    (∀ text kind kind', Spells text kind → Spells text kind' → kind = kind') ∧
    ∀ f, TokenStream.ofSource file source = .error f ↔ ∃ l, StopsAt source.toList l ∧
      f = (Cause.unexpectedInput (String.ofList l.text)).fault
        ((LineIndex.ofSource file source).locate ⟨l.start, l.stop⟩) := by
  refine ⟨fun s => TokenStream.ofSource_eq_ok_iff, fun s ls h => ?_, ?_,
    fun f => TokenStream.ofSource_eq_error_iff⟩
  · exact ⟨h.start_lt_stop, h.pairwise, h.exists_piece, s.exists_get?_word⟩
  · intro text kind kind' h h'
    have hkind := Spelling.kind?_eq_some_iff.mpr h
    rw [Spelling.kind?_eq_some_iff.mpr h'] at hkind
    exact (Option.some.inj hkind).symm

end StackEffect
