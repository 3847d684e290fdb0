import StackEffect.Token

/-! # Numbers of texts

A lexicon numbers the texts of a sequence by first appearance. Each text has a number, which gives
the text back. The texts of a longer sequence go on where the numbers of a shorter one end.
-/

namespace StackEffect.Lexicon

theorem texts_intern (t : Lexicon) (text : String) :
    (t.intern text).1.texts = if text ∈ t.texts then t.texts else t.texts ++ [text] := by
  unfold intern get?
  cases hid : t.texts.idxOf? text with
  | some id =>
    have hmem : text ∈ t.texts := List.isSome_idxOf?.mp (by rw [hid]; rfl)
    rw [if_pos hmem]
  | none => rw [if_neg (List.idxOf?_eq_none_iff.mp hid)]

theorem mem_texts_intern {t : Lexicon} {text text' : String} :
    text' ∈ (t.intern text).1.texts ↔ text' ∈ t.texts ∨ text' = text := by
  rw [texts_intern]
  by_cases hmem : text ∈ t.texts
  · rw [if_pos hmem]
    refine ⟨.inl, fun h => h.elim id ?_⟩
    rintro rfl
    exact hmem
  · rw [if_neg hmem, List.mem_append, List.mem_singleton]

theorem mem_texts_internAll {t : Lexicon} {texts : List String} {text : String} :
    text ∈ (t.internAll texts).texts ↔ text ∈ t.texts ∨ text ∈ texts := by
  unfold internAll
  induction texts generalizing t with
  | nil => simp
  | cons text' texts ih =>
    rw [List.foldl_cons, ih, mem_texts_intern, List.mem_cons, or_assoc]

@[simp] theorem mem_texts_ofList {texts : List String} {text : String} :
    text ∈ (ofList texts).texts ↔ text ∈ texts := by
  unfold ofList
  rw [mem_texts_internAll]
  simp

theorem internAll_append (t : Lexicon) (as bs : List String) :
    t.internAll (as ++ bs) = (t.internAll as).internAll bs :=
  List.foldl_append

/-- What a text's number stands for. -/
theorem text?_of_get? {t : Lexicon} {text : String} {id : Nat} (h : t.get? text = some id) :
    t.text? id = some text := by
  obtain ⟨hlt, heq, _⟩ := List.idxOf?_eq_some_iff.mp h
  rw [text?, List.getElem?_eq_getElem hlt, heq]

theorem exists_get?_of_mem {t : Lexicon} {text : String} (h : text ∈ t.texts) :
    ∃ id, t.get? text = some id :=
  Option.isSome_iff_exists.mp (List.isSome_idxOf?.mpr h)

/-- A lexicon goes on with the texts of another one, in their order and without those that it
lists. -/
structure Continues (first next whole : Lexicon) : Prop where
  texts : whole.texts = first.texts ++ next.texts.filter (· ∉ first.texts)
  kept : ∀ text id, first.get? text = some id → whole.get? text = some id
  added : ∀ text ∈ next.texts, text ∉ first.texts →
    ∃ id, (next.texts.filter (· ∉ first.texts)).idxOf? text = some id ∧
      whole.get? text = some (first.texts.length + id)

end StackEffect.Lexicon
