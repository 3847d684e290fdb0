import Mathlib.Data.Finset.Card
import StackEffect.Lexicon.Pool
import StackEffect.Proofs.Numbering

/-! # Interning

Texts are interned one after the other, and each call gives an identifier. Equal texts get the same
one and different texts different ones, new texts are numbered in order, and an identifier stands
for its text from then on. This follows from what a store does with one text, so it holds of every
store that finds the texts it has and puts new ones behind them. The lexicon and the pool of string
literals are such stores.
-/

namespace StackEffect

/-- One more text adds to the number of different texts exactly if it is a new one. -/
theorem card_toFinset_concat (texts : List String) (text : String) :
    (texts ++ [text]).toFinset.card =
      if text ∈ texts then texts.toFinset.card else texts.toFinset.card + 1 := by
  have hset : (texts ++ [text]).toFinset = insert text texts.toFinset := by
    ext t
    simp
  rw [hset]
  by_cases hmem : text ∈ texts
  · rw [if_pos hmem, Finset.insert_eq_of_mem (List.mem_toFinset.mpr hmem)]
  · rw [if_neg hmem, Finset.card_insert_of_notMem (by simpa using hmem)]

theorem card_toFinset_le {as bs : List String} (h : as ⊆ bs) :
    as.toFinset.card ≤ bs.toFinset.card :=
  Finset.card_le_card fun _ ht => List.mem_toFinset.mpr (h (List.mem_toFinset.mp ht))

/-- A store of texts that go by identifiers. -/
structure TextStore (σ ι : Type) where
  empty : σ
  /-- The identifier of a text, which is put into the store unless it is there. -/
  intern : σ → String → σ × ι
  /-- The identifier of a text that is there. -/
  find? : σ → String → Option ι
  /-- The text that an identifier stands for. -/
  text? : σ → ι → Option String
  /-- The number of texts. -/
  count : σ → Nat
  /-- The number of an identifier. -/
  number : ι → Nat

namespace TextStore

variable {σ ι : Type}

/-- What is relied on of a store, as long as 32-bit words can number its texts: it finds what it
has, numbers new texts in order, and never moves a text. -/
structure Orderly (store : TextStore σ ι) : Prop where
  count_empty : store.count store.empty = 0
  find?_empty : ∀ text, store.find? store.empty text = none
  known : ∀ s text id, store.find? s text = some id → store.intern s text = (s, id)
  count_new : ∀ s text, store.find? s text = none →
    store.count (store.intern s text).1 = store.count s + 1
  find?_new : ∀ s text, store.find? s text = none → ∀ text',
    store.find? (store.intern s text).1 text' =
      if text' = text then some (store.intern s text).2 else store.find? s text'
  number_new : ∀ s text, store.find? s text = none → store.count s + 1 < 0x100000000 →
    store.number (store.intern s text).2 = store.count s
  text?_new : ∀ s text, store.find? s text = none → store.count s + 1 < 0x100000000 →
    store.text? (store.intern s text).1 (store.intern s text).2 = some text
  text?_kept : ∀ s text id text', store.text? s id = some text' →
    store.text? (store.intern s text).1 id = some text'

section Calls

variable (store : TextStore σ ι)

def run (s : σ) (texts : List String) : σ :=
  texts.foldl (fun s text => (store.intern s text).1) s

def after (texts : List String) : σ :=
  store.run store.empty texts

/-- Texts that are interned one after the other, each with the identifier that it gets. -/
def callsFrom : σ → List String → List (String × ι)
  | _, [] => []
  | s, text :: texts =>
    (text, (store.intern s text).2) :: callsFrom (store.intern s text).1 texts

def calls (texts : List String) : List (String × ι) :=
  store.callsFrom store.empty texts

/-- The identifiers that texts get are a bijection that never changes: they tell the texts apart,
they are numbered by first appearance, and each stands for its text ever after. -/
structure NumbersStably (texts : List String) : Prop where
  answered : (store.calls texts).map (·.1) = texts
  same_iff : ∀ c ∈ store.calls texts, ∀ c' ∈ store.calls texts, c.2 = c'.2 ↔ c.1 = c'.1
  in_order : ∀ k c, (store.calls texts)[k]? = some c → c.1 ∉ texts.take k →
    store.number c.2 = (texts.take k).toFinset.card
  looked_up : ∀ k m c, (store.calls texts)[k]? = some c → k < m →
    store.text? (store.after (texts.take m)) c.2 = some c.1

/-- The store has the given texts, and finds each of them by the identifier it has for it. -/
structure Holds (s : σ) (texts : List String) : Prop where
  count : store.count s = texts.toFinset.card
  found : ∀ text, store.find? s text = none ↔ text ∉ texts
  text : ∀ text id, store.find? s text = some id → store.text? s id = some text

variable {store}

theorem run_cons (s : σ) (text : String) (texts : List String) :
    store.run s (text :: texts) = store.run (store.intern s text).1 texts :=
  rfl

theorem after_concat (texts : List String) (text : String) :
    store.after (texts ++ [text]) = (store.intern (store.after texts) text).1 :=
  List.foldl_concat _ _ _ _

theorem take_succ_of_getElem? {texts : List String} {k : Nat} {text : String}
    (h : texts[k]? = some text) : texts.take (k + 1) = texts.take k ++ [text] := by
  rw [List.take_add_one, h, Option.toList_some]

theorem map_fst_callsFrom (s : σ) (texts : List String) :
    (store.callsFrom s texts).map (·.1) = texts := by
  induction texts generalizing s with
  | nil => rfl
  | cons text texts ih => rw [callsFrom, List.map_cons, ih]

/-- A call is answered from the store that the calls before it have left. -/
theorem getElem?_callsFrom (s : σ) (texts : List String) (k : Nat) :
    (store.callsFrom s texts)[k]? =
      texts[k]?.map fun text => (text, (store.intern (store.run s (texts.take k)) text).2) := by
  induction texts generalizing s k with
  | nil => rfl
  | cons text texts ih =>
    cases k with
    | zero => rfl
    | succ k => exact ih _ k

end Calls

namespace Orderly

variable {store : TextStore σ ι} {s : σ} {texts : List String} {text : String}

theorem holds_empty (ho : store.Orderly) : store.Holds store.empty [] where
  count := ho.count_empty
  found text := by simp [ho.find?_empty]
  text text id h := by rw [ho.find?_empty] at h; cases h

/-- One more text is interned. -/
theorem holds_intern (ho : store.Orderly) (h : store.Holds s texts)
    (hroom : (texts ++ [text]).toFinset.card < 0x100000000) :
    store.Holds (store.intern s text).1 (texts ++ [text]) := by
  rw [card_toFinset_concat] at hroom
  cases hfind : store.find? s text with
  | some id =>
    have hmem : text ∈ texts := by
      by_contra hmem
      rw [(h.found text).mpr hmem] at hfind
      cases hfind
    rw [ho.known s text id hfind]
    refine ⟨?_, fun text' => ?_, h.text⟩
    · rw [card_toFinset_concat, if_pos hmem, h.count]
    · rw [h.found, List.mem_append, List.mem_singleton, not_or, iff_self_and]
      rintro hmem' rfl
      exact hmem' hmem
  | none =>
    have hmem : text ∉ texts := (h.found text).mp hfind
    rw [if_neg hmem, ← h.count] at hroom
    refine ⟨?_, fun text' => ?_, fun text' id hid => ?_⟩
    · rw [card_toFinset_concat, if_neg hmem, ho.count_new s text hfind, h.count]
    · rw [ho.find?_new s text hfind, List.mem_append, List.mem_singleton]
      by_cases heq : text' = text
      · simp [heq]
      · simp [heq, h.found]
    · rw [ho.find?_new s text hfind] at hid
      by_cases heq : text' = text
      · rw [if_pos heq] at hid
        rw [heq, ← Option.some.inj hid]
        exact ho.text?_new s text hfind hroom
      · rw [if_neg heq] at hid
        exact ho.text?_kept s text id text' (h.text text' id hid)

theorem holds_after (ho : store.Orderly) (hroom : texts.toFinset.card < 0x100000000) :
    store.Holds (store.after texts) texts := by
  induction texts using List.reverseRecOn with
  | nil => exact ho.holds_empty
  | append_singleton texts text ih =>
    have hfewer := card_toFinset_le (List.subset_append_left texts [text])
    rw [after_concat]
    exact ho.holds_intern (ih (hfewer.trans_lt hroom)) hroom

theorem find?_intern_self (ho : store.Orderly) (s : σ) (text : String) :
    store.find? (store.intern s text).1 text = some (store.intern s text).2 := by
  cases hfind : store.find? s text with
  | some id => rw [ho.known s text id hfind, hfind]
  | none => rw [ho.find?_new s text hfind, if_pos rfl]

/-- The identifier of a text never changes. -/
theorem find?_run (ho : store.Orderly) {id : ι} (h : store.find? s text = some id)
    (texts : List String) : store.find? (store.run s texts) text = some id := by
  induction texts generalizing s with
  | nil => exact h
  | cons text' texts ih =>
    rw [run_cons]
    apply ih
    cases hfind : store.find? s text' with
    | some id' => rw [ho.known s text' id' hfind, h]
    | none =>
      have hne : text ≠ text' := by
        rintro rfl
        rw [h] at hfind
        cases hfind
      rw [ho.find?_new s text' hfind, if_neg hne, h]

/-- What a call has answered is found from then on. -/
theorem find?_of_call (ho : store.Orderly) {k m : Nat} {c : String × ι}
    (hc : (store.calls texts)[k]? = some c) (hkm : k < m) :
    store.find? (store.after (texts.take m)) c.1 = some c.2 := by
  rw [calls, getElem?_callsFrom] at hc
  obtain ⟨text, htext, rfl⟩ := Option.map_eq_some_iff.mp hc
  have hfirst := take_succ_of_getElem? htext
  obtain ⟨later, hlater⟩ : texts.take (k + 1) <+: texts.take m := List.take_prefix_take_left hkm
  have hsplit : store.after (texts.take m) =
      store.run (store.intern (store.after (texts.take k)) text).1 later := by
    rw [← after_concat, ← hfirst, ← hlater]
    exact List.foldl_append
  rw [hsplit]
  exact ho.find?_run (ho.find?_intern_self _ text) later

theorem find?_of_mem_calls (ho : store.Orderly) {c : String × ι} (hc : c ∈ store.calls texts) :
    store.find? (store.after texts) c.1 = some c.2 := by
  obtain ⟨k, hk⟩ := List.mem_iff_getElem?.mp hc
  have hlt := (List.getElem?_eq_some_iff.mp hk).1
  rw [← List.length_map (·.1), calls, map_fst_callsFrom] at hlt
  have hfound := ho.find?_of_call hk hlt
  rwa [List.take_length] at hfound

/-- The number of a new text is the number of different texts before it. -/
theorem number_of_call (ho : store.Orderly) (hroom : texts.toFinset.card < 0x100000000) {k : Nat}
    {c : String × ι} (hc : (store.calls texts)[k]? = some c) (hnew : c.1 ∉ texts.take k) :
    store.number c.2 = (texts.take k).toFinset.card := by
  have hfewer := (card_toFinset_le (List.take_subset k texts)).trans_lt hroom
  have hholds := ho.holds_after hfewer
  have hfind := (hholds.found c.1).mpr hnew
  rw [calls, getElem?_callsFrom] at hc
  obtain ⟨text, htext, rfl⟩ := Option.map_eq_some_iff.mp hc
  -- Together with the new text these are still texts of the whole sequence, so there is room.
  have hone := (card_toFinset_le (List.take_subset (k + 1) texts)).trans_lt hroom
  rw [take_succ_of_getElem? htext, card_toFinset_concat, if_neg hnew, ← hholds.count] at hone
  rw [← hholds.count]
  exact ho.number_new _ _ hfind hone

/-- The store numbers the texts that are interned in it, once and for all. -/
theorem numbersStably (ho : store.Orderly) (hroom : texts.toFinset.card < 0x100000000) :
    store.NumbersStably texts where
  answered := map_fst_callsFrom _ _
  same_iff c hc c' hc' := by
    have hfind := ho.find?_of_mem_calls hc
    have hfind' := ho.find?_of_mem_calls hc'
    constructor
    · intro hid
      have htext := (ho.holds_after hroom).text _ _ hfind
      have htext' := (ho.holds_after hroom).text _ _ hfind'
      rw [hid, htext'] at htext
      exact (Option.some.inj htext).symm
    · intro htext
      rw [htext, hfind'] at hfind
      exact (Option.some.inj hfind).symm
  in_order _ _ hc hnew := ho.number_of_call hroom hc hnew
  looked_up _ m _ hc hkm := by
    have hfewer := (card_toFinset_le (List.take_subset m texts)).trans_lt hroom
    exact (ho.holds_after hfewer).text _ _ (ho.find?_of_call hc hkm)

end Orderly

end TextStore

/-! ## The lexicon -/

namespace Lexicon

variable {l : Lexicon} {text : String}

def store : TextStore Lexicon Nat where
  empty := {}
  intern := intern
  find? := get?
  text? := text?
  count l := l.texts.length
  number := id

theorem intern_of_get? {id : Nat} (h : l.get? text = some id) : l.intern text = (l, id) := by
  rw [intern, h]

theorem intern_of_get?_eq_none (h : l.get? text = none) :
    l.intern text = (⟨l.texts ++ [text]⟩, l.texts.length) := by
  rw [intern, h]

/-- What a lexicon finds once a new text is listed. -/
theorem get?_concat (h : l.get? text = none) (text' : String) :
    get? ⟨l.texts ++ [text]⟩ text' =
      if text' = text then some l.texts.length else l.get? text' := by
  have happend : get? ⟨l.texts ++ [text]⟩ text' =
      (l.get? text').or (([text].idxOf? text').map (· + l.texts.length)) := List.findIdx?_append
  rw [happend]
  by_cases heq : text' = text
  · subst heq
    rw [h, if_pos rfl, Option.none_or]
    simp [List.idxOf?_cons]
  · rw [if_neg heq]
    simp [List.idxOf?_cons, Ne.symm heq]

theorem text?_intern {id : Nat} {text' : String} (text : String) (h : l.text? id = some text') :
    (l.intern text).1.text? id = some text' := by
  cases hid : l.get? text with
  | some id' => rwa [intern_of_get? hid]
  | none =>
    have hlt := (List.getElem?_eq_some_iff.mp h).1
    rw [intern_of_get?_eq_none hid]
    exact (List.getElem?_append_left hlt).trans h

theorem store_orderly : store.Orderly where
  count_empty := rfl
  find?_empty _ := rfl
  known _ _ _ h := intern_of_get? h
  count_new l text h := by
    simp [store, intern_of_get?_eq_none h]
  find?_new l text h text' := by
    simpa [store, intern_of_get?_eq_none h] using get?_concat h text'
  number_new l text h _ := by
    simp [store, intern_of_get?_eq_none h]
  text?_new l text h _ := by
    simp [store, intern_of_get?_eq_none h, text?]
  text?_kept _ text _ _ h := text?_intern text h

theorem nodup_texts_ofList (texts : List String) : (ofList texts).texts.Nodup := by
  induction texts using List.reverseRecOn with
  | nil => exact List.nodup_nil
  | append_singleton texts text ih =>
    rw [ofList, internAll_append]
    change ((ofList texts).intern text).1.texts.Nodup
    rw [texts_intern]
    by_cases hmem : text ∈ (ofList texts).texts
    · rwa [if_pos hmem]
    · rw [if_neg hmem, ← List.concat_eq_append]
      exact ih.concat hmem

theorem length_texts_ofList (texts : List String) :
    (ofList texts).texts.length = texts.toFinset.card := by
  rw [← List.toFinset_card_of_nodup (nodup_texts_ofList texts)]
  congr 1
  ext text
  simp

end Lexicon

/-! ## The pool of string literals -/

namespace LiteralPool

variable {p : LiteralPool} {l : Lexicon} {text : String}

def store : TextStore LiteralPool UInt32 where
  empty := {}
  intern := intern
  find? p text := p.numbers[text]?
  text? p id := (p.get? id).map (·.text)
  count p := p.literals.length
  number := UInt32.toNat

theorem intern_of_numbers {id : UInt32} (h : p.numbers[text]? = some id) :
    p.intern text = (p, id) := by
  rw [intern, h]

theorem intern_of_numbers_eq_none (h : p.numbers[text]? = none) :
    p.intern text = (⟨p.literals ++ [⟨text, text.utf8ByteSize⟩],
      p.numbers.insert text (.ofNat p.literals.length)⟩, .ofNat p.literals.length) := by
  rw [intern, h]

theorem toNat_ofNat_of_room {n : Nat} (h : n < 0x100000000) : (UInt32.ofNat n).toNat = n :=
  UInt32.toNat_ofNat_of_lt' h

theorem get?_intern {id : UInt32} {lit : Literal} (text : String) (h : p.get? id = some lit) :
    (p.intern text).1.get? id = some lit := by
  cases hid : p.numbers[text]? with
  | some id' => rwa [intern_of_numbers hid]
  | none =>
    have hlt := (List.getElem?_eq_some_iff.mp h).1
    rw [intern_of_numbers_eq_none hid]
    exact (List.getElem?_append_left hlt).trans h

theorem store_orderly : store.Orderly where
  count_empty := rfl
  find?_empty _ := Std.HashMap.getElem?_empty
  known _ _ _ h := intern_of_numbers h
  count_new p text h := by
    simp [store, intern_of_numbers_eq_none h]
  find?_new p text h text' := by
    simp only [store, intern_of_numbers_eq_none h, Std.HashMap.getElem?_insert]
    by_cases heq : text' = text
    · simp [heq]
    · simp [heq, Ne.symm heq]
  number_new p text h hroom := by
    have hnumber := toNat_ofNat_of_room (Nat.lt_of_succ_lt hroom)
    simpa [store, intern_of_numbers_eq_none h] using hnumber
  text?_new p text h hroom := by
    have hnumber : (UInt32.ofNat p.literals.length).toNat = p.literals.length :=
      toNat_ofNat_of_room (Nat.lt_of_succ_lt hroom)
    simp [store, intern_of_numbers_eq_none h, get?, hnumber]
  text?_kept p text id text' h := by
    obtain ⟨lit, hlit, rfl⟩ := Option.map_eq_some_iff.mp h
    exact Option.map_eq_some_iff.mpr ⟨lit, get?_intern text hlit, rfl⟩

/-- The pool lists the texts of a lexicon with their sizes, and its index has their numbers. -/
structure Mirrors (p : LiteralPool) (l : Lexicon) : Prop where
  literals : p.literals = l.texts.map fun text => ⟨text, text.utf8ByteSize⟩
  numbers : ∀ text, p.numbers[text]? = (l.get? text).map UInt32.ofNat

theorem Mirrors.intern (h : p.Mirrors l) (text : String) :
    (p.intern text).1.Mirrors (l.intern text).1 := by
  have hnumber := h.numbers text
  cases hid : l.get? text with
  | some id =>
    rw [hid, Option.map_some] at hnumber
    rwa [intern_of_numbers hnumber, Lexicon.intern_of_get? hid]
  | none =>
    rw [hid, Option.map_none] at hnumber
    rw [intern_of_numbers_eq_none hnumber, Lexicon.intern_of_get?_eq_none hid]
    refine ⟨by simp [h.literals], fun text' => ?_⟩
    rw [Lexicon.get?_concat hid, Std.HashMap.getElem?_insert]
    by_cases heq : text' = text
    · simp [heq, h.literals]
    · simp [heq, Ne.symm heq, h.numbers]

theorem mirrors_after (texts : List String) :
    Mirrors (store.after texts) (Lexicon.ofList texts) := by
  induction texts using List.reverseRecOn with
  | nil => exact ⟨rfl, fun _ => Std.HashMap.getElem?_empty⟩
  | append_singleton texts text ih =>
    rw [TextStore.after_concat, Lexicon.ofList, Lexicon.internAll_append]
    exact ih.intern text

/-- The entries of a pool after texts have been interned: each of them once, in the order of their
numbers, with its length in bytes, and found under its number. -/
structure Lists (p : LiteralPool) (texts : List String) : Prop where
  numbers : p.entries.map (·.1.toNat) = List.range texts.toFinset.card
  once : (p.entries.map (·.2.text)).Nodup
  texts : ∀ text, text ∈ p.entries.map (·.2.text) ↔ text ∈ texts
  sizes : ∀ e ∈ p.entries, e.2.size = e.2.text.toByteArray.size
  found : ∀ e ∈ p.entries, p.get? e.1 = some e.2

theorem map_snd_entries (p : LiteralPool) : p.entries.map (·.2) = p.literals := by
  rw [entries, List.map_map]
  exact List.zipIdx_map_fst 0 p.literals

theorem numbers_entries (hroom : p.literals.length < 0x100000000) :
    p.entries.map (·.1.toNat) = List.range p.literals.length := by
  rw [entries, List.map_map, List.range_eq_range', ← List.zipIdx_map_snd]
  apply List.map_congr_left
  rintro ⟨lit, i⟩ hi
  exact toNat_ofNat_of_room ((List.mem_zipIdx' hi).1.trans hroom)

theorem get?_of_mem_entries (hroom : p.literals.length < 0x100000000) {e : UInt32 × Literal}
    (he : e ∈ p.entries) : p.get? e.1 = some e.2 := by
  obtain ⟨⟨lit, i⟩, hi, rfl⟩ := List.mem_map.mp he
  rw [get?, toNat_ofNat_of_room ((List.mem_zipIdx' hi).1.trans hroom)]
  exact List.mem_zipIdx_iff_getElem?.mp hi

theorem lists_after {texts : List String} (hroom : texts.toFinset.card < 0x100000000) :
    Lists (store.after texts) texts := by
  have hliterals := (mirrors_after texts).literals
  have hlength : (store.after texts).literals.length = texts.toFinset.card := by
    rw [hliterals, List.length_map, Lexicon.length_texts_ofList]
  have htexts : (store.after texts).entries.map (·.2.text) = (Lexicon.ofList texts).texts :=
    calc (store.after texts).entries.map (·.2.text)
      _ = ((store.after texts).entries.map (·.2)).map (·.text) := List.map_map.symm
      _ = (Lexicon.ofList texts).texts.map id := by
        rw [map_snd_entries, hliterals, List.map_map]
        rfl
      _ = (Lexicon.ofList texts).texts := List.map_id _
  rw [← hlength] at hroom
  refine ⟨hlength ▸ numbers_entries hroom, ?_, fun text => ?_, fun e he => ?_,
    fun e => get?_of_mem_entries hroom⟩
  · rw [htexts]
    exact Lexicon.nodup_texts_ofList texts
  · rw [htexts, Lexicon.mem_texts_ofList]
  · have hmem : e.2 ∈ (store.after texts).literals :=
      map_snd_entries (store.after texts) ▸ List.mem_map_of_mem he
    rw [hliterals] at hmem
    obtain ⟨text, _, htext⟩ := List.mem_map.mp hmem
    rw [← htext]
    rfl

end LiteralPool

/-- Interning is a bijection between the texts and their numbers that never changes. This holds of
words in any store that numbers new words in order and never moves them, of words in a lexicon, and
of string literals in a pool. The pool lists each literal once, in the order of the numbers and with
its length in bytes, and numbers them as a lexicon does. -/
theorem interning_is_a_stable_bijection (texts : List String)
    (h : texts.toFinset.card < 0x100000000) :
    (∀ (σ ι : Type) (store : TextStore σ ι), store.Orderly → store.NumbersStably texts) ∧
      Lexicon.store.NumbersStably texts ∧ LiteralPool.store.NumbersStably texts ∧
      (LiteralPool.store.after texts).Lists texts ∧
      (LiteralPool.store.after texts).Mirrors (Lexicon.ofList texts) :=
  ⟨fun _ _ _ ho => ho.numbersStably h, Lexicon.store_orderly.numbersStably h,
    LiteralPool.store_orderly.numbersStably h, LiteralPool.lists_after h,
    LiteralPool.mirrors_after texts⟩

/-- Words with repeats, one of them of more bytes than characters and one empty. -/
theorem repeated_words_are_numbered_once :
    Lexicon.store.calls ["dup", "é", "dup", "", "é"] =
        [("dup", 0), ("é", 1), ("dup", 0), ("", 2), ("é", 1)] ∧
      Lexicon.store.NumbersStably ["dup", "é", "dup", "", "é"] ∧
      (LiteralPool.store.after ["dup", "é", "dup", "", "é"]).literals =
        [⟨"dup", 3⟩, ⟨"é", 2⟩, ⟨"", 0⟩] := by
  obtain ⟨hstore, _, _, _, hmirrors⟩ :=
    interning_is_a_stable_bijection ["dup", "é", "dup", "", "é"] (by decide)
  exact ⟨by decide, hstore Lexicon Nat Lexicon.store Lexicon.store_orderly,
    hmirrors.literals.trans (by decide)⟩

end StackEffect
