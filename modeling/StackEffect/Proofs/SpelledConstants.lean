import StackEffect.Proofs.TruthValues

/-! # Constants written out

A constant can be written out: instead of its name, a text may hold the literals that push the same
values, with a cast behind an address that stands for a struct. Where the tables are canonical, a
fold cannot tell the two apart. Elsewhere it can: a truth constant that has been made from another
word keeps this word in folds, and bodies push one for it.
-/

namespace StackEffect

/-- The words of a text are no keywords. -/
theorem TokenStream.word_ne_keyword {file source : String} {s : TokenStream}
    (hs : ofSource file source = .ok s) :
    ∀ t ∈ s.tokens, ∀ w, t.kind = .word w → ∀ k : Keyword, w ≠ k.text := by
  rintro t ht w hw k rfl
  obtain ⟨_, _, _, hreserved⟩ := exists_word hs ht hw
  exact hreserved (.inl ⟨k, rfl⟩)

theorem dotted_ne_keyword (a b : String) (k : Keyword) : s!"{a}.{b}" ≠ k.text := by
  intro h
  have hdot : '.' ∈ (a ++ "." ++ b).toList := by simp
  rw [show a ++ "." ++ b = k.text from h] at hdot
  revert hdot
  cases k <;> decide

namespace Symbols

/-- The token that does in a fold what an operation does in a body. -/
def spelling? (s : Symbols) : OpKind → Option TokenKind
  | .pushInt n => some (.int n)
  | .pushBool b => some (.bool b)
  | .pushPtr n => some (.ptr n)
  | .cast ty => some (.word ("#*" ++ s.typeName ty))
  | _ => none

def spell (s : Symbols) (ops : List OpKind) (loc : Location) : List Token :=
  (ops.filterMap s.spelling?).map (⟨·, loc⟩)

/-- A struct is the target of a cast to its name behind a star. -/
theorem castTarget?_struct {s : Symbols} (hs : s.Coherent) {id : Nat} {d : StructDef}
    (hd : s.structs[id]? = some d) (hname : ∀ k : Keyword, d.name ≠ k.text) :
    s.castTarget? ("*" ++ d.name) = some (.struct id) := by
  have hfind : s.findStruct? d.name = some (id, d) := hs.findStruct?_eq_some_iff.mpr ⟨hd, rfl⟩
  have hnamed : s.namedType? d.name = some (.struct id) := by
    have hint : d.name ≠ "int" := hname .intKw
    have hbool : d.name ≠ "bool" := hname .boolKw
    have hptr : d.name ≠ "ptr" := hname .ptrKw
    rw [namedType?, if_neg hint, if_neg hbool, if_neg hptr, hfind]
    rfl
  have hstar : stripSigil? '*' ("*" ++ d.name) = some d.name := stripSigil?_append '*' d.name
  simp [castTarget?, hstar, hnamed, Ty.isStruct]

end Symbols

/-- The tables of a text can be written out: they are canonical and coherent, constants have types
of values, and structs are not named like keywords. -/
structure Symbols.Spellable (s : Symbols) : Prop where
  canonical : ∀ c ∈ s.consts, c.value.Canonical
  coherent : s.Coherent
  declared : ∀ c ∈ s.consts, c.value.ty.Declared s.structs.length
  names : ∀ d ∈ s.structs, ∀ k : Keyword, d.name ≠ k.text

namespace Fold

variable {sym : Symbols} (eof : Location) (st : List Value) (count : Nat) (loc : Location)
  (ts : List Token)

theorem run_cons {t : Token} (hend : t.kind ≠ .keyword .endKw) {next : List Value}
    (h : token sym t st = .ok next) :
    run sym eof st count (t :: ts) = run sym eof next (count + 1) ts := by
  simp only [run, if_neg hend, h]

/-- The literals for a constant push its value. -/
theorem run_spell_pushes (hsym : sym.Spellable) {v : Value} (hv : v.Canonical)
    (hty : v.ty.Declared sym.structs.length) :
    run sym eof st count (sym.spell v.pushes loc ++ ts) =
      run sym eof (v :: st) (count + v.pushes.length) ts := by
  obtain ⟨bits, ty⟩ := v
  cases ty with
  | any => exact absurd hty id
  | int | ptr => exact run_cons eof st count ts (by simp) rfl
  | bool =>
    have hvalue := Value.literal_eq_iff.mpr hv
    refine run_cons eof st count ts (by simp) ?_
    exact congrArg (fun v => Except.ok (v :: st)) hvalue
  | struct id =>
    obtain ⟨d, hd⟩ : ∃ d, sym.structs[id]? = some d := ⟨_, List.getElem?_eq_getElem hty⟩
    have hname : sym.typeName (.struct id) = d.name := by simp [Symbols.typeName, hd]
    have htarget := Symbols.castTarget?_struct hsym.coherent hd
      (hsym.names d (List.mem_of_getElem? hd))
    have hsigil : stripSigil? '#' ("#*" ++ d.name) = some ("*" ++ d.name) := by
      have happend := stripSigil?_append '#' ("*" ++ d.name)
      rwa [← String.append_assoc] at happend
    have hcast : token sym ⟨.word ("#*" ++ sym.typeName (.struct id)), loc⟩ (.ptr bits :: st) =
        .ok (⟨bits, .struct id⟩ :: st) := by
      simp [token, word, Resolution.ofName?_of_cast hsigil, hname, hsigil, cast, htarget, Value.ptr]
    change run sym eof st count (⟨.ptr bits, loc⟩ :: ⟨.word _, loc⟩ :: ts) = _
    rw [run_cons eof st count _ (by simp) rfl, run_cons eof _ _ ts (by simp) hcast]
    rfl

theorem run_spell (hsym : sym.Spellable) {values : List Value}
    (hvalues : ∀ v ∈ values, ∃ c ∈ sym.consts, c.value = v) :
    run sym eof st count (sym.spell (values.flatMap Value.pushes) loc ++ ts) =
      run sym eof (values.reverse ++ st) (count + (values.flatMap Value.pushes).length) ts := by
  induction values generalizing st count with
  | nil => rfl
  | cons v values ih =>
    obtain ⟨⟨c, hc, rfl⟩, hrest⟩ := List.forall_mem_cons.mp hvalues
    have hsplit : sym.spell ((c.value :: values).flatMap Value.pushes) loc =
        sym.spell c.value.pushes loc ++ sym.spell (values.flatMap Value.pushes) loc := by
      simp [Symbols.spell]
    rw [hsplit, List.append_assoc, run_spell_pushes eof st count loc _ hsym (hsym.canonical c hc)
      (hsym.declared c hc), ih _ _ hrest]
    simp [Nat.add_assoc]

end Fold

namespace Resolution

def constantOps? (r : Resolution) (t : Token) : Option (List OpKind) :=
  t.kind.word?.bind fun text =>
    if Intrinsic.ofName? text = none ∧ stripSigil? '#' text = none then
      ((r.structConst? text).or (r.const? text)).map (·.ops)
    else none

/-- A token, or the literals for the constant that it names. -/
def spellOut (r : Resolution) (t : Token) : List Token :=
  match r.constantOps? t with
  | some ops => r.symbols.spell ops t.loc
  | none => [t]

variable {r : Resolution} {t : Token}

/-- A fold pushes the values of constants from the tables. -/
theorem exists_values_of_constantOps? {ops : List OpKind} (h : r.constantOps? t = some ops) :
    ∃ values : List Value, ops = values.flatMap Value.pushes ∧
      (∀ v ∈ values, ∃ c ∈ r.symbols.consts, c.value = v) ∧
      ∀ st, Fold.token r.symbols t st = .ok (values.reverse ++ st) := by
  obtain ⟨text, htext, h⟩ := Option.bind_eq_some_iff.mp h
  have hkind : t.kind = .word text := by
    unfold TokenKind.word? at htext
    split at htext <;> simp_all
  split at h
  · rename_i hnames
    obtain ⟨m, hm, rfl⟩ := Option.map_eq_some_iff.mp h
    rcases Option.or_eq_some_iff.mp hm with hm | ⟨hnone, hm⟩
    · obtain ⟨⟨i, c⟩, hc, rfl⟩ := Option.map_eq_some_iff.mp hm
      refine ⟨r.symbols.constValues c, rfl, ?_, ?_⟩
      · intro v hv
        obtain ⟨j, _, hj⟩ := List.mem_filterMap.mp hv
        obtain ⟨e, he, rfl⟩ := Option.map_eq_some_iff.mp hj
        exact ⟨e, List.mem_of_getElem? he, rfl⟩
      · intro st
        simp [Fold.token, hkind, Fold.word, hnames, Fold.constant, hc]
    · obtain ⟨⟨i, c⟩, hc, rfl⟩ := Option.map_eq_some_iff.mp hm
      have hstruct : r.symbols.findStructConst? text = none := by
        simpa [structConst?] using hnone
      refine ⟨[c.value], by simp, ?_, ?_⟩
      · have hmem := List.mem_of_getElem? (Named.getElem?_of_last? hc)
        simpa using ⟨c, hmem, rfl⟩
      · intro st
        simp [Fold.token, hkind, Fold.word, hnames, Fold.constant, hstruct, hc]
  · cases h

theorem constantOps?_of_end (ht : t.kind = .keyword .endKw) : r.constantOps? t = none := by
  simp [constantOps?, ht, TokenKind.word?]

/-- A fold leaves the same values when constants are written out. -/
theorem fold_spellOut (hr : r.symbols.Spellable) (eof : Location) (st : List Value)
    (count count' : Nat) (ts : List Token) :
    (Fold.run r.symbols eof st count ts).map (·.values) =
      (Fold.run r.symbols eof st count' (ts.flatMap r.spellOut)).map (·.values) := by
  induction ts generalizing st count count' with
  | nil => rfl
  | cons t ts ih =>
    rw [List.flatMap_cons]
    by_cases hend : t.kind = .keyword .endKw
    · simp [spellOut, constantOps?_of_end hend, Fold.run, hend, Except.map]
    · cases hops : r.constantOps? t with
      | some ops =>
        obtain ⟨values, rfl, hvalues, htoken⟩ := exists_values_of_constantOps? hops
        rw [Fold.run_cons eof st count ts hend (htoken st), spellOut, hops,
          Fold.run_spell eof st count' t.loc _ hr hvalues]
        exact ih _ _ _
      | none =>
        simp only [spellOut, hops, List.singleton_append, Fold.run, if_neg hend]
        cases htoken : Fold.token r.symbols t st with
        | error f => rfl
        | ok next => exact ih _ _ _

theorem Reaches.spellable {file source : String} {s : TokenStream}
    (hs : TokenStream.ofSource file source = .ok s) {rest : List Token}
    (hr : Reaches s.eof {} s.tokens r rest) (hcanonical : r.symbols.Canonical) :
    r.symbols.Spellable where
  canonical := hcanonical.consts
  coherent := hr.coherent .empty .empty
  declared := (hr.sound .empty).tables.consts
  names := (hr.allNames (fun a b _ _ => dotted_ne_keyword a b)
    (TokenStream.word_ne_keyword hs)).structs

end Resolution

/-- At every point of a text all truth values in the tables are zero or one exactly if no
initializer on the way has left another, which is so if none has forged one. Then the operations of
a constant push the value that folds use for it, and a fold leaves the same values when constants
are written out as literals. -/
theorem constants_mean_the_same_in_folds {file source : String} {s : TokenStream}
    (hs : TokenStream.ofSource file source = .ok s) {r : Resolution} {rest : List Token}
    (hr : Resolution.Reaches s.eof {} s.tokens r rest) :
    (r.symbols.Canonical ↔
      Resolution.ReachesWhile (Fold.Truthful · s.eof) s.eof {} s.tokens r rest) ∧
    (Resolution.ReachesWhile (fun sym => Fold.Honest sym []) s.eof {} s.tokens r rest →
      r.symbols.Canonical) ∧
    (r.symbols.Canonical →
      (∀ c ∈ r.symbols.consts, ∀ slots stack,
        Store.run? ⟨slots, stack⟩ c.value.pushes = some ⟨slots, c.value :: stack⟩) ∧
      ∀ (eof : Location) (ts : List Token),
        (Folded.ofTokens r.symbols eof ts).map (·.values) =
          (Folded.ofTokens r.symbols eof (ts.flatMap r.spellOut)).map (·.values)) := by
  refine ⟨hr.canonical_iff, fun hhonest => hhonest.canonical, fun hcanonical => ⟨?_, ?_⟩⟩
  · intro c hc slots stack
    rw [Store.run?_pushes slots stack (hr.foldable.consts c hc),
      Value.literal_eq_iff.mpr (hcanonical.consts c hc)]
  · intro eof ts
    exact Resolution.fold_spellOut (hr.spellable hs hcanonical) eof [] 0 0 ts

/-- Truth values in all tables. One of them is cast from a number, and one is forged and dropped. -/
def honestText : String :=
  "S struct b bool true end T :: true end U :: T false = end x : S U end C : S :: 1 #bool end " ++
    "f :: y bool 2 #bool drop T end z : S end end"

theorem honest_constants_mean_the_same : ∃ s r rest,
    TokenStream.ofSource "f" honestText = .ok s ∧ Resolution.Reaches s.eof {} s.tokens r rest ∧
    r.symbols.consts.map (·.value) = [.bool true, .bool false, .bool true] ∧
    r.symbols.Canonical ∧
    Resolution.ReachesWhile (Fold.Truthful · s.eof) s.eof {} s.tokens r rest ∧
    (∀ c ∈ r.symbols.consts, ∀ slots stack,
      Store.run? ⟨slots, stack⟩ c.value.pushes = some ⟨slots, c.value :: stack⟩) ∧
    ∀ (eof : Location) (ts : List Token),
      (Folded.ofTokens r.symbols eof ts).map (·.values) =
        (Folded.ofTokens r.symbols eof (ts.flatMap r.spellOut)).map (·.values) := by
  obtain ⟨s, r, rest, hs, hr, hcanonical, hvalues⟩ := Resolution.exists_point
    (x := TokenStream.ofSource "f" honestText) 8
    (P := fun _ r => r.symbols.Canonical ∧
      r.symbols.consts.map (·.value) = [.bool true, .bool false, .bool true]) (by decide +kernel)
  obtain ⟨hiff, _, hsame⟩ := constants_mean_the_same_in_folds hs hr
  exact ⟨s, r, rest, hs, hr, hvalues, hcanonical, hiff.mp hcanonical, hsame hcanonical⟩

def forgingText : String :=
  "B :: 2 #bool end T :: true true + end F :: false true - end N :: B #int end"

/-- Forged truth values are recorded, and a fold tells such a constant from the literal that stands
for it. -/
theorem forged_truth_values_are_kept : ∃ s r rest,
    TokenStream.ofSource "f" forgingText = .ok s ∧ Resolution.Reaches s.eof {} s.tokens r rest ∧
    (Program.ofTokens s).toOption.isSome ∧
    r.symbols.consts.map (·.value) = [⟨2, .bool⟩, ⟨2, .bool⟩, ⟨-1, .bool⟩, ⟨2, .int⟩] ∧
    (Folded.ofTokens r.symbols s.eof (s.tokens.drop 23)).toOption.map (·.values) =
      some [.int 2] ∧
    (Folded.ofTokens r.symbols s.eof ((s.tokens.drop 23).flatMap r.spellOut)).toOption.map
      (·.values) = some [.int 1] :=
  Resolution.exists_point 4 (by decide +kernel)

end StackEffect
