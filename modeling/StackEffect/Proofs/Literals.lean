import Mathlib.Data.Nat.Digits.Defs
import StackEffect.Listing
import StackEffect.Proofs.Tokens

/-! # Literals are read back

A number that fits in 64 bits can be written in decimal or, unless it is negative, in hexadecimal
digits, and a string between quotes with escapes. What is written in this way is read back as one
token, and a run of digits that denotes any other number is refused as a whole.
-/

namespace StackEffect

/-! ## Texts of one token -/

/-- A text is read as a token of this kind, as a source of its own and wherever it is a lexeme. -/
structure LexesAs (text : List Char) (kind : TokenKind) : Prop where
  alone : ∀ file, TokenStream.ofSource file (String.ofList text) =
    .ok ⟨[⟨kind, (LineIndex.ofSource file (String.ofList text)).locate ⟨0, byteLength text⟩⟩],
      (LineIndex.ofSource file (String.ofList text)).locate ⟨byteLength text, byteLength text⟩⟩
  anywhere : ∀ index start, TokenStream.token index ⟨start, text⟩ =
    .ok ⟨kind, index.locate ⟨start, start + byteLength text⟩⟩

def IsLexerFault {α : Type} (result : Except Fault α) : Prop :=
  ∃ f, result = .error f ∧ f.cause.kind = .lexer

def IsLexerFaultAt {α : Type} (result : Except Fault α) (loc : Location) : Prop :=
  ∃ f, result = .error f ∧ f.cause.kind = .lexer ∧ f.loc = loc

/-- A text is refused as a whole, as a source of its own and wherever it is a lexeme. -/
structure RefusedWhole (text : List Char) : Prop where
  alone : ∀ file, IsLexerFaultAt (TokenStream.ofSource file (String.ofList text))
    ((LineIndex.ofSource file (String.ofList text)).locate ⟨0, byteLength text⟩)
  anywhere : ∀ index start, IsLexerFaultAt (TokenStream.token index ⟨start, text⟩)
    (index.locate ⟨start, start + byteLength text⟩)

section OneToken

variable {text : List Char} {kind : TokenKind}

theorem TokenText.reads_alone (h : TokenText [] text) :
    Reads 0 (String.ofList text).toList [⟨0, text⟩] (byteLength text) [] := by
  have hread : Reads 0 ([] ++ (text ++ [])) [⟨0 + byteLength [], text⟩]
      (0 + byteLength [] + byteLength text) [] := .token .nil h .start
  simpa [byteLength] using hread

theorem Spells.lexesAs (h : Spells text kind) (htext : TokenText [] text) :
    LexesAs text kind where
  alone file := by
    refine TokenStream.ofSource_eq_ok_iff.mpr
      ⟨[⟨0, text⟩], ⟨_, [], htext.reads_alone, .nil⟩, .cons ⟨h, ?_⟩ .nil, ?_⟩
    · rw [Lexeme.stop_eq, Nat.zero_add]
    · rw [byteLength_ofList]
  anywhere index start := TokenStream.token_eq_ok_iff.mpr ⟨h, rfl⟩

theorem Rejected.isLexerFault {rest : List Char} (h : Rejected rest text) (file : String) :
    IsLexerFaultAt (TokenStream.ofSource file (String.ofList (text ++ rest)))
      ((LineIndex.ofSource file (String.ofList (text ++ rest))).locate ⟨0, byteLength text⟩) := by
  have hstops : StopsAt (String.ofList (text ++ rest)).toList ⟨0, text⟩ := by
    refine ⟨[], 0, [], rest, ?_, .nil, rfl, by simp, h⟩
    simpa using Reads.start
  refine ⟨_, TokenStream.ofSource_eq_error_iff.mpr ⟨_, hstops, rfl⟩, rfl, ?_⟩
  rw [Lexeme.stop_eq, Nat.zero_add]
  rfl

theorem Rejected.refusedWhole (h : Rejected [] text) : RefusedWhole text where
  alone file := by simpa using h.isLexerFault file
  anywhere index start :=
    ⟨_, TokenStream.token_eq_error_iff.mpr ⟨h.kind?_eq_none, rfl⟩, rfl, rfl⟩

end OneToken

/-! ## Numbers -/

/-- A text of digits, in either case, with their values in a base up to sixteen, the most
significant first. -/
structure Digits (base : Nat) (text : List Char) (values : List Nat) : Prop where
  spelled : text.map Char.toLower = values.map Nat.digitChar
  small : ∀ d ∈ values, d < base

/-- The number that a run denotes: the digits of a decimal number, with an optional minus sign, or
the digits of a hexadecimal number behind `0x`. -/
inductive Denotes : List Char → Int → Prop
  | natural {text : List Char} {values : List Nat} (hne : text ≠ []) (h : Digits 10 text values) :
      Denotes text (Nat.ofDigits 10 values.reverse : Nat)
  | negative {text : List Char} {values : List Nat} (hne : text ≠ []) (h : Digits 10 text values) :
      Denotes ('-' :: text) (-(Nat.ofDigits 10 values.reverse : Nat))
  | hex {text : List Char} {values : List Nat} (hne : text ≠ []) (h : Digits 16 text values) :
      Denotes ('0' :: 'x' :: text) (Nat.ofDigits 16 values.reverse : Nat)

/-- A decimal spelling of a number, with zeros in front of its digits. -/
def decimal (n : Int) (zeros : Nat) : List Char :=
  (if n < 0 then ['-'] else []) ++ (List.replicate zeros '0' ++ Nat.toDigits 10 n.natAbs)

theorem eq_toLower_or_toUpper (c : Char) : c = c.toLower ∨ c = c.toLower.toUpper := by
  by_cases h : c.val ≥ 'A'.val ∧ c.val ≤ 'Z'.val
  · right
    have hlower : c.toLower.val = c.val + 32 := by
      delta Char.toLower
      rw [dif_pos h]
      rfl
    have hrange : c.toLower.val ≥ 'a'.val ∧ c.toLower.val ≤ 'z'.val := by
      rw [hlower]
      simp only [ge_iff_le, UInt32.le_iff_toNat_le, UInt32.toNat_add, Char.reduceVal,
        UInt32.reduceToNat] at h ⊢
      omega
    have hupper : c.toLower.toUpper.val = c.toLower.val + ('A'.val - 'a'.val) := by
      delta Char.toUpper
      rw [dif_pos hrange]
    -- The two offsets between the cases cancel out.
    apply Char.ext
    rw [hupper, hlower, UInt32.add_assoc]
    exact (UInt32.add_zero _).symm
  · left
    delta Char.toLower
    rw [dif_neg h]

/-- What the reader makes of a digit, in either case. -/
theorem digit_of_toLower {c : Char} {d : Nat} (hd : d < 16) (h : c.toLower = d.digitChar) :
    Spelling.digitValue c = d ∧ Spelling.isHexDigit c ∧ (d < 10 → c.isDigit) := by
  have hlower : ∀ d < 16, Spelling.digitValue d.digitChar = d ∧
      Spelling.isHexDigit d.digitChar ∧ (d < 10 → d.digitChar.isDigit) := by decide
  have hupper : ∀ d < 16, Spelling.digitValue d.digitChar.toUpper = d ∧
      Spelling.isHexDigit d.digitChar.toUpper ∧ (d < 10 → d.digitChar.toUpper.isDigit) := by decide
  rcases eq_toLower_or_toUpper c with heq | heq
  · rw [heq, h]
    exact hlower d hd
  · rw [heq, h]
    exact hupper d hd

theorem toLower_digitChar {d : Nat} (hd : d < 16) : d.digitChar.toLower = d.digitChar := by
  have hall : ∀ d < 16, d.digitChar.toLower = d.digitChar := by decide
  exact hall d hd

namespace Digits

variable {base : Nat} {text : List Char} {values : List Nat}

theorem of_cons {c : Char} {d : Nat} (h : Digits base (c :: text) (d :: values)) :
    c.toLower = d.digitChar ∧ d < base ∧ Digits base text values := by
  obtain ⟨hc, htext⟩ := List.cons.inj h.spelled
  obtain ⟨hd, hvalues⟩ := List.forall_mem_cons.mp h.small
  exact ⟨hc, hd, htext, hvalues⟩

/-- The digits of a text are read with their values, whatever stands before them. -/
theorem foldl_eq (h : Digits base text values) (hbase : base ≤ 16) (n : Nat) :
    text.foldl (fun n c => n * base + Spelling.digitValue c) n =
      n * base ^ text.length + Nat.ofDigits base values.reverse := by
  induction text generalizing values n with
  | nil =>
    obtain rfl : values = [] := by simpa using h.spelled.symm
    simp
  | cons c text ih =>
    cases values with
    | nil => cases h.spelled
    | cons d values =>
      obtain ⟨hc, hd, hrest⟩ := h.of_cons
      have hlength : text.length = values.length := by
        simpa using congrArg List.length hrest.spelled
      rw [List.foldl_cons, (digit_of_toLower (Nat.lt_of_lt_of_le hd hbase) hc).1, ih hrest,
        Nat.ofDigits_reverse_cons, List.length_cons, hlength]
      ring

theorem ofDigits_eq (h : Digits base text values) (hbase : base ≤ 16) :
    Spelling.ofDigits base text = Nat.ofDigits base values.reverse := by
  simpa [Spelling.ofDigits] using h.foldl_eq hbase 0

theorem exists_value (h : Digits base text values) {c : Char} (hc : c ∈ text) :
    ∃ d < base, c.toLower = d.digitChar := by
  have hmem : c.toLower ∈ values.map Nat.digitChar := h.spelled ▸ List.mem_map_of_mem hc
  obtain ⟨d, hd, heq⟩ := List.mem_map.mp hmem
  exact ⟨d, h.small d hd, heq.symm⟩

theorem isDigit (h : Digits 10 text values) : ∀ c ∈ text, '0' ≤ c ∧ c ≤ '9' := by
  intro c hc
  obtain ⟨d, hd, heq⟩ := h.exists_value hc
  exact (Spelling.isDigit_iff c).mp ((digit_of_toLower (by omega) heq).2.2 hd)

theorem isHexDigit (h : Digits 16 text values) :
    ∀ c ∈ text, ('0' ≤ c ∧ c ≤ '9') ∨ ('a' ≤ c ∧ c ≤ 'f') ∨ ('A' ≤ c ∧ c ≤ 'F') := by
  intro c hc
  obtain ⟨d, hd, heq⟩ := h.exists_value hc
  exact (Spelling.isHexDigit_iff c).mp (digit_of_toLower hd heq).2.1

end Digits

/-- The digits of a number are its digits. -/
theorem exists_toDigits {base : Nat} (hone : 1 < base) (n : Nat) :
    ∃ values : List Nat, Nat.toDigits base n = values.map Nat.digitChar ∧
      (∀ d ∈ values, d < base) ∧ Nat.ofDigits base values.reverse = n := by
  induction n using Nat.base_induction base hone with
  | single m hm => exact ⟨[m], by simp [Nat.toDigits_of_lt_base hm], by simpa using hm, by simp⟩
  | digit m k hk hm ih =>
    obtain ⟨values, hspelled, hsmall, hvalue⟩ := ih
    refine ⟨values ++ [k], ?_, ?_, ?_⟩
    · rw [← Nat.toDigits_append_toDigits hone hm hk, hspelled, Nat.toDigits_of_lt_base hk]
      simp
    · exact List.forall_mem_append.mpr ⟨hsmall, by simpa using hk⟩
    · rw [List.reverse_append, List.reverse_singleton, List.singleton_append, Nat.ofDigits_cons,
        hvalue, Nat.add_comm]

/-- The digits of a number, in either case and with zeros in front of them. -/
theorem exists_digits {base n zeros : Nat} {text : List Char} (hone : 1 < base)
    (h : text.map Char.toLower = List.replicate zeros '0' ++ Nat.toDigits base n) :
    ∃ values, Digits base text values ∧ Nat.ofDigits base values.reverse = n := by
  obtain ⟨values, hspelled, hsmall, hvalue⟩ := exists_toDigits hone n
  refine ⟨List.replicate zeros 0 ++ values, ⟨?_, ?_⟩, ?_⟩
  · rw [h, hspelled, List.map_append, List.map_replicate]
    rfl
  · refine List.forall_mem_append.mpr ⟨fun d hd => ?_, hsmall⟩
    rw [List.eq_of_mem_replicate hd]
    omega
  · rw [List.reverse_append, List.reverse_replicate, Nat.ofDigits_append_replicate_zero, hvalue]

theorem Denotes.writes {text : List Char} {n : Int} (h : Denotes text n) : Writes text n := by
  cases h with
  | natural hne h => exact h.ofDigits_eq (by decide) ▸ .natural hne h.isDigit
  | negative hne h => exact h.ofDigits_eq (by decide) ▸ .negative hne h.isDigit
  | hex hne h => exact h.ofDigits_eq (by decide) ▸ .hex hne h.isHexDigit

theorem isRunChar_of_isHexDigit {c : Char} (h : Spelling.isHexDigit c) :
    isRunChar c ∧ c ≠ '/' := by
  constructor
  · by_contra hother
    have hc : c = ' ' ∨ c = '\t' ∨ c = '\r' ∨ c = '\n' ∨ c = '\x0c' ∨ c = ':' ∨ c = '"' := by
      simpa only [isRunChar, isBlank, Bool.not_eq_true, Bool.not_eq_false', Bool.or_eq_true,
        beq_iff_eq, or_assoc] using hother
    rcases hc with rfl | rfl | rfl | rfl | rfl | rfl | rfl <;> exact absurd h (by decide)
  · rintro rfl
    exact absurd h (by decide)

/-- What denotes a number is a run, and no comment. -/
theorem Denotes.tokenText {text : List Char} {n : Int} (h : Denotes text n) :
    TokenText [] text := by
  have hdigits {base : Nat} {digits : List Char} {values : List Nat} (hbase : base ≤ 16)
      (h : Digits base digits values) : ∀ c ∈ digits, isRunChar c ∧ c ≠ '/' := by
    intro c hc
    obtain ⟨d, hd, heq⟩ := h.exists_value hc
    exact isRunChar_of_isHexDigit (digit_of_toLower (Nat.lt_of_lt_of_le hd hbase) heq).2.1
  have hrun : text ≠ [] ∧ ∀ c ∈ text, isRunChar c ∧ c ≠ '/' := by
    cases h with
    | natural hne h => exact ⟨hne, hdigits (by decide) h⟩
    | negative _ h => exact ⟨by simp, List.forall_mem_cons.mpr ⟨by decide, hdigits (by decide) h⟩⟩
    | hex _ h =>
      exact ⟨by simp, List.forall_mem_cons.mpr ⟨by decide,
        List.forall_mem_cons.mpr ⟨by decide, hdigits (by decide) h⟩⟩⟩
  refine .run hrun.1 (fun c hc => (hrun.2 c hc).1) (by simp) fun hslashes => ?_
  exact (hrun.2 '/' (hslashes.subset (by simp))).2 rfl

theorem Denotes.lexesAs {text : List Char} {n : Int} (h : Denotes text n) (hfits : FitsWord n) :
    LexesAs text (.int (.ofInt n)) :=
  Spells.lexesAs (.int h.writes hfits) h.tokenText

theorem Denotes.refusedWhole {text : List Char} {n : Int} (h : Denotes text n)
    (hfits : ¬ FitsWord n) : RefusedWhole text :=
  Rejected.refusedWhole (.overflow h.tokenText h.writes hfits)

theorem denotes_decimal (n : Int) (zeros : Nat) : Denotes (decimal n zeros) n := by
  have hlower : (List.replicate zeros '0' ++ Nat.toDigits 10 n.natAbs).map Char.toLower =
      List.replicate zeros '0' ++ Nat.toDigits 10 n.natAbs := by
    obtain ⟨values, hspelled, hsmall, -⟩ := exists_toDigits (by decide : 1 < 10) n.natAbs
    rw [hspelled, List.map_append, List.map_replicate, List.map_map]
    congr 1
    exact List.map_congr_left fun d hd => toLower_digitChar (by have := hsmall d hd; omega)
  obtain ⟨values, hdigits, hvalue⟩ := exists_digits (by decide) hlower
  have hne : List.replicate zeros '0' ++ Nat.toDigits 10 n.natAbs ≠ [] := by simp
  by_cases hneg : n < 0
  · have hdenotes := Denotes.negative hne hdigits
    rw [hvalue, show (-(n.natAbs : Int)) = n by omega] at hdenotes
    rwa [decimal, if_pos hneg]
  · have hdenotes := Denotes.natural hne hdigits
    rw [hvalue, Int.natAbs_of_nonneg (Int.not_lt.mp hneg)] at hdenotes
    rwa [decimal, if_neg hneg]

theorem denotes_hex {n zeros : Nat} {digits : List Char}
    (h : digits.map Char.toLower = List.replicate zeros '0' ++ Nat.toDigits 16 n) :
    Denotes ('0' :: 'x' :: digits) n := by
  obtain ⟨values, hdigits, hvalue⟩ := exists_digits (by decide) h
  have hne : digits ≠ [] := by
    rintro rfl
    simp at h
  exact hvalue ▸ .hex hne hdigits

theorem fitsWord_toInt (n : Int64) : FitsWord n.toInt := by
  have hlow := n.le_toInt
  have hhigh := n.toInt_lt
  unfold FitsWord
  omega

/-! ## Strings -/

def escapeTable : List (Char × Char) :=
  [('n', '\n'), ('t', '\t'), ('r', '\r'), ('0', '\x00'), ('\\', '\\'), ('"', '"')]

inductive WrittenAs : Char → List Char → Prop
  | plain {c : Char} (hquote : c ≠ '"') (hescape : c ≠ '\\') : WrittenAs c [c]
  | escape {c letter : Char} (h : (letter, c) ∈ escapeTable) : WrittenAs c ['\\', letter]

/-- What stands between the quotes of a literal, with the characters behind the backslashes that
start escapes. -/
inductive Escapes : List Char → List Char → Prop
  | nil : Escapes [] []
  | char {c : Char} {body letters : List Char} (hquote : c ≠ '"') (hescape : c ≠ '\\')
      (h : Escapes body letters) : Escapes (c :: body) letters
  | escape {c : Char} {body letters : List Char} (h : Escapes body letters) :
      Escapes ('\\' :: c :: body) (c :: letters)

theorem escaped?_eq_some_iff {c letter : Char} :
    Spelling.escaped? letter = some c ↔ (letter, c) ∈ escapeTable := by
  constructor
  · intro h
    unfold Spelling.escaped? at h
    split at h
    all_goals cases h
    all_goals decide
  · intro h
    revert h
    simp only [escapeTable, List.mem_cons, Prod.mk.injEq, List.not_mem_nil, or_false]
    rintro (⟨rfl, rfl⟩ | ⟨rfl, rfl⟩ | ⟨rfl, rfl⟩ | ⟨rfl, rfl⟩ | ⟨rfl, rfl⟩ | ⟨rfl, rfl⟩) <;> rfl

theorem unescapes_of_written {cs : List Char} {pieces : List (List Char)}
    (h : List.Forall₂ WrittenAs cs pieces) : Unescapes pieces.flatten cs := by
  induction h with
  | nil => exact .nil
  | cons hc _ ih =>
    cases hc with
    | plain hquote hescape => exact .char hquote hescape ih
    | escape hletter => exact .escape (escaped?_eq_some_iff.mpr hletter) ih

theorem Unescapes.literalItems {body cs : List Char} (h : Unescapes body cs) :
    LiteralItems body := by
  induction h with
  | nil => exact .nil
  | char hquote hescape _ ih => exact .char hquote hescape ih
  | escape hescape _ ih =>
    refine .escape ?_ ih
    rintro rfl
    cases hescape

/-- What stands for contents is read back as these. -/
theorem Unescapes.lexesAs {body cs : List Char} (h : Unescapes body cs) :
    LexesAs ('"' :: (body ++ ['"'])) (.str (String.ofList cs)) :=
  Spells.lexesAs (.str h) (.literal h.literalItems)

namespace Escapes

variable {body letters cs : List Char}

theorem exists_unescapes (h : Escapes body letters)
    (hknown : ∀ c ∈ letters, Spelling.escaped? c ≠ none) : ∃ cs, Unescapes body cs := by
  induction h with
  | nil => exact ⟨[], .nil⟩
  | char hquote hescape _ ih =>
    obtain ⟨cs, hcs⟩ := ih hknown
    exact ⟨_, .char hquote hescape hcs⟩
  | escape _ ih =>
    obtain ⟨hc, hrest⟩ := List.forall_mem_cons.mp hknown
    obtain ⟨d, hd⟩ := Option.ne_none_iff_exists'.mp hc
    obtain ⟨cs, hcs⟩ := ih hrest
    exact ⟨_, .escape hd hcs⟩

theorem known (h : Escapes body letters) (hbody : Unescapes body cs) :
    ∀ c ∈ letters, Spelling.escaped? c ≠ none := by
  induction h generalizing cs with
  | nil => simp
  | char hquote hescape _ ih =>
    cases hbody with
    | char _ _ hbody => exact ih hbody
    | escape => exact absurd rfl hescape
  | escape _ ih =>
    cases hbody with
    | char _ hescape => exact absurd rfl hescape
    | escape hd hbody => exact List.forall_mem_cons.mpr ⟨by simp [hd], ih hbody⟩

/-- Only a backslash at the end of a line is no part of a complete item. -/
theorem items_or_line (h : Escapes body letters) :
    LiteralItems body ∨
      ∃ before after, body = before ++ '\\' :: '\n' :: after ∧ LiteralItems before := by
  induction h with
  | nil => exact .inl .nil
  | @char c _ _ hquote hescape _ ih =>
    obtain hitems | ⟨before, after, rfl, hitems⟩ := ih
    · exact .inl (.char hquote hescape hitems)
    · exact .inr ⟨c :: before, after, rfl, .char hquote hescape hitems⟩
  | @escape c body _ _ ih =>
    by_cases hline : c = '\n'
    · subst hline
      exact .inr ⟨[], body, rfl, .nil⟩
    · obtain hitems | ⟨before, after, rfl, hitems⟩ := ih
      · exact .inl (.escape hline hitems)
      · exact .inr ⟨'\\' :: c :: before, after, rfl, .escape hline hitems⟩

/-- A literal with an unknown escape is refused, at the latest at its closing quote. -/
theorem exists_rejected (h : Escapes body letters) {c : Char} (hc : c ∈ letters)
    (hunknown : Spelling.escaped? c = none) :
    ∃ text rest, '"' :: (body ++ ['"']) = text ++ rest ∧ Rejected rest text := by
  obtain hitems | ⟨before, after, rfl, hitems⟩ := h.items_or_line
  · obtain ⟨cs, hcs⟩ | ⟨before, d, after, rfl, hbefore, hd, hline, hafter⟩ :=
      Spelling.unescapes_or_unknown hitems
    · exact absurd hunknown (h.known hcs c hc)
    · exact ⟨_, [], by simp, .unknownEscape hbefore hd hline hafter⟩
  · exact ⟨'"' :: before, '\\' :: '\n' :: (after ++ ['"']), by simp, .unterminated hitems .line⟩

end Escapes

/-- The letters of escapes are those of the table. -/
theorem mem_letters_iff {c : Char} :
    c ∈ ['n', 't', 'r', '0', '\\', '"'] ↔ Spelling.escaped? c ≠ none := by
  constructor
  · simp only [List.mem_cons, List.not_mem_nil, or_false]
    rintro (rfl | rfl | rfl | rfl | rfl | rfl) <;> decide
  · intro h
    obtain ⟨d, hd⟩ := Option.ne_none_iff_exists'.mp h
    have hmem : c ∈ escapeTable.map (·.1) :=
      List.mem_map_of_mem (f := (·.1)) (escaped?_eq_some_iff.mp hd)
    exact hmem

/-- The listing of a program with a single string literal gives its length in bytes. -/
theorem stringLine_mem_opLines {p : Program} {s : String} (h : p.strings.texts = [s]) :
    s!"str 0  {quoted s} ({byteLength s.toList} bytes)" ∈ p.opLines := by
  rw [byteLength_toList, Program.opLines, h]
  exact List.mem_append_right _ (List.mem_singleton.mpr rfl)

/-- Literals are read back as what they were written for. A number in 64 bits is read back from its
decimal digits and, unless it is negative, from its hexadecimal digits, and a run that denotes any
other number is refused as a whole. A string is read back from any way to write it between quotes,
and what stands between quotes is accepted exactly if all its escapes are known. -/
theorem literals_are_read_back :
    (∀ (n : Int64) (zeros : Nat), LexesAs (decimal n.toInt zeros) (.int n)) ∧
    (∀ (n : Int64) (zeros : Nat) (digits : List Char), 0 ≤ n.toInt →
      digits.map Char.toLower = List.replicate zeros '0' ++ Nat.toDigits 16 n.toInt.toNat →
      LexesAs ('0' :: 'x' :: digits) (.int n)) ∧
    (∀ (run : List Char) (value : Int), Denotes run value →
      (FitsWord value → LexesAs run (.int (.ofInt value))) ∧
      (¬ FitsWord value → RefusedWhole run)) ∧
    (∀ (s : String) (pieces : List (List Char)), List.Forall₂ WrittenAs s.toList pieces →
      LexesAs ('"' :: (pieces.flatten ++ ['"'])) (.str s) ∧
      ∀ file stream, TokenStream.ofSource file
          (String.ofList ('"' :: (pieces.flatten ++ ['"']))) = .ok stream →
        stream.strings.texts = [s] ∧ ∀ p : Program, p.strings = stream.strings →
          s!"str 0  {quoted s} ({byteLength s.toList} bytes)" ∈ p.opLines) ∧
    ∀ (body letters : List Char), Escapes body letters →
      ((∀ c ∈ letters, c ∈ ['n', 't', 'r', '0', '\\', '"']) →
        ∃ s, LexesAs ('"' :: (body ++ ['"'])) (.str s)) ∧
      ((∃ c ∈ letters, c ∉ ['n', 't', 'r', '0', '\\', '"']) → ∀ file, IsLexerFault
        (TokenStream.ofSource file (String.ofList ('"' :: (body ++ ['"']))))) := by
  refine ⟨fun n zeros => ?_, fun n zeros digits hn hdigits => ?_, fun run value h => ?_,
    fun s pieces h => ?_, fun body letters h => ⟨fun hknown => ?_, ?_⟩⟩
  · simpa using (denotes_decimal n.toInt zeros).lexesAs (fitsWord_toInt n)
  · have hdenotes := denotes_hex hdigits
    rw [Int.toNat_of_nonneg hn] at hdenotes
    simpa using hdenotes.lexesAs (fitsWord_toInt n)
  · exact ⟨h.lexesAs, h.refusedWhole⟩
  · have hlexes : LexesAs ('"' :: (pieces.flatten ++ ['"'])) (.str s) := by
      simpa using (unescapes_of_written h).lexesAs
    refine ⟨hlexes, fun file stream hstream => ?_⟩
    obtain rfl := Except.ok.inj ((hlexes.alone file).symm.trans hstream)
    exact ⟨rfl, fun p hp => stringLine_mem_opLines (hp ▸ rfl)⟩
  · obtain ⟨cs, hcs⟩ := h.exists_unescapes fun c hc => mem_letters_iff.mp (hknown c hc)
    exact ⟨_, hcs.lexesAs⟩
  · rintro ⟨c, hc, hunknown⟩ file
    rw [mem_letters_iff, not_not] at hunknown
    obtain ⟨text, rest, htext, hrejected⟩ := h.exists_rejected hc hunknown
    obtain ⟨f, hf, hkind, -⟩ := hrejected.isLexerFault file
    exact ⟨f, htext ▸ hf, hkind⟩

/-- The least number with zeros in front, a hexadecimal number in both cases, the first number that
does not fit, and a string of a backslash, a quote and a newline. -/
theorem extreme_literals_are_read_back :
    LexesAs "-0009223372036854775808".toList (.int Int64.minValue) ∧
      LexesAs "0x00fF".toList (.int 255) ∧
      RefusedWhole "9223372036854775808".toList ∧
      LexesAs "\"\\\\\\\"\n\"".toList (.str "\\\"\n") := by
  obtain ⟨hdecimal, hhex, hrun, hstring, -⟩ := literals_are_read_back
  refine ⟨?_, ?_, ?_, ?_⟩
  · exact hdecimal Int64.minValue 3
  · exact hhex 255 2 ['0', '0', 'f', 'F'] (by decide) (by decide)
  · have hdenotes : Denotes "9223372036854775808".toList 9223372036854775808 :=
      denotes_decimal 9223372036854775808 0
    exact (hrun _ _ hdenotes).2 (by decide)
  · exact (hstring "\\\"\n" [['\\', '\\'], ['\\', '"'], ['\n']] (.cons (.escape (by decide))
      (.cons (.escape (by decide)) (.cons (.plain (by decide) (by decide)) .nil)))).1

end StackEffect
