import StackEffect.Proofs.LineStarts

/-! # Lines and columns

The line of an offset is one more than the number of newline bytes before it, and its column is one
more than its distance from the end of the last of them. So places stand in the order of their
offsets, and no two offsets share one. The line that halving finds is the same as the one that is
found by going through all line starts, and halving never leaves them.
-/

namespace StackEffect

/-! ## Newline bytes -/

/-- The offsets in front of a given one at which the byte of the newline stands. -/
def newlinesBefore (source : String) (offset : Nat) : List Nat :=
  (List.range offset).filter fun i => source.toByteArray.data[i]? = some 10

/-- Where the line of an offset starts: behind the last newline in front of it, or at the beginning
of the text. -/
def lineStart (source : String) (offset : Nat) : Nat :=
  (newlinesBefore source offset).getLast?.elim 0 (· + 1)

theorem mem_newlinesBefore {source : String} {offset i : Nat} :
    i ∈ newlinesBefore source offset ↔ i < offset ∧ source.toByteArray.data[i]? = some 10 := by
  simp [newlinesBefore]

/-- More newlines stand in front of a later offset, behind those in front of an earlier one. -/
theorem newlinesBefore_isPrefix (source : String) {m n : Nat} (h : m ≤ n) :
    newlinesBefore source m <+: newlinesBefore source n := by
  obtain ⟨k, rfl⟩ := Nat.exists_eq_add_of_le h
  rw [newlinesBefore, newlinesBefore, List.range_add, List.filter_append]
  exact List.prefix_append _ _

theorem length_newlinesBefore_le (source : String) (offset : Nat) :
    (newlinesBefore source offset).length ≤ offset := by
  simpa [newlinesBefore] using
    List.length_filter_le (fun i => source.toByteArray.data[i]? = some 10) (List.range offset)

theorem lineStart_le (source : String) (offset : Nat) : lineStart source offset ≤ offset := by
  unfold lineStart
  cases hlast : (newlinesBefore source offset).getLast? with
  | none => exact Nat.zero_le _
  | some i => exact (mem_newlinesBefore.mp (List.mem_of_getLast? hlast)).1

/-- Only the newline has its byte in its encoding: all bytes of longer encodings have a high bit. -/
theorem newline_mem_utf8EncodeChar {c : Char} : 10 ∈ String.utf8EncodeChar c ↔ c = '\n' := by
  have hlow (n : Nat) (h : n < 256) : (10 : UInt8) = UInt8.ofNat n ↔ n = 10 := by
    rw [← UInt8.toNat_inj, UInt8.toNat_ofNat_of_lt' h]
    exact eq_comm
  have hchar : c.val.toNat = 10 ↔ c = '\n' :=
    ⟨fun h => Char.ext (UInt32.toNat_inj.mp h), fun h => h ▸ rfl⟩
  rw [← hchar]
  delta String.utf8EncodeChar
  dsimp only
  split_ifs
  · simp (disch := omega) only [List.mem_singleton, hlow]
  all_goals
    simp (disch := omega) only [List.mem_cons, List.not_mem_nil, or_false, hlow]
    omega

/-- The newline bytes of a text are those of its first character, if that is a newline, and those of
the characters behind it. -/
theorem newline_getElem?_flatMap_cons {c : Char} {cs : List Char} {j : Nat} :
    ((c :: cs).flatMap String.utf8EncodeChar)[j]? = some 10 ↔
      (c = '\n' ∧ j = 0) ∨
        ∃ k, (cs.flatMap String.utf8EncodeChar)[k]? = some 10 ∧ j = c.utf8Size + k := by
  have hlength := String.length_utf8EncodeChar c
  have hpos := c.utf8Size_pos
  rw [List.flatMap_cons]
  by_cases hj : j < c.utf8Size
  · rw [List.getElem?_append_left (by omega)]
    constructor
    · intro h
      obtain rfl := newline_mem_utf8EncodeChar.mp (List.mem_of_getElem? h)
      exact .inl ⟨rfl, Nat.lt_one_iff.mp hj⟩
    · rintro (⟨rfl, rfl⟩ | ⟨k, _, hk⟩)
      · rfl
      · omega
  · rw [List.getElem?_append_right (by omega), hlength]
    constructor
    · intro h
      exact .inr ⟨_, h, by omega⟩
    · rintro (⟨_, hzero⟩ | ⟨k, hk, rfl⟩)
      · omega
      · rwa [Nat.add_sub_cancel_left]

namespace LineIndex

/-! ## Line starts -/

variable {file source : String} {span : Span}

/-- A line starts behind every newline byte. -/
theorem mem_startsFrom {pos i : Nat} {cs : List Char} :
    i ∈ startsFrom pos cs ↔
      ∃ j, (cs.flatMap String.utf8EncodeChar)[j]? = some 10 ∧ i = pos + j + 1 := by
  induction cs generalizing pos with
  | nil => simp [startsFrom]
  | cons c cs ih =>
    simp only [newline_getElem?_flatMap_cons]
    by_cases hc : c = '\n'
    · subst hc
      have hsize : Char.utf8Size '\n' = 1 := rfl
      rw [startsFrom, if_pos rfl, List.mem_cons, ih, hsize]
      constructor
      · rintro (rfl | ⟨k, hk, rfl⟩)
        · exact ⟨0, .inl ⟨rfl, rfl⟩, rfl⟩
        · exact ⟨1 + k, .inr ⟨k, hk, rfl⟩, by omega⟩
      · rintro ⟨j, ⟨_, rfl⟩ | ⟨k, hk, rfl⟩, rfl⟩
        · exact .inl rfl
        · exact .inr ⟨k, hk, by omega⟩
    · rw [startsFrom, if_neg hc, ih]
      constructor
      · rintro ⟨k, hk, rfl⟩
        exact ⟨c.utf8Size + k, .inr ⟨k, hk, rfl⟩, by omega⟩
      · rintro ⟨j, ⟨hnewline, _⟩ | ⟨k, hk, rfl⟩, rfl⟩
        · exact absurd hnewline hc
        · exact ⟨k, hk, by omega⟩

/-- The lines that start up to an offset: the first one, and one behind each newline before it. -/
theorem filter_starts (file source : String) (offset : Nat) :
    (ofSource file source).starts.filter (· ≤ offset) =
      0 :: (newlinesBefore source offset).map (· + 1) := by
  have hbytes (j : Nat) : source.toByteArray.data[j]? = some 10 ↔
      (source.toList.flatMap String.utf8EncodeChar)[j]? = some 10 := by
    rw [← String.utf8Encode_toList, List.utf8Encode, List.data_toByteArray, List.getElem?_toArray]
  have hnewlines : ((newlinesBefore source offset).map (· + 1)).Pairwise (· < ·) :=
    List.pairwise_map.mpr ((List.pairwise_lt_range.filter _).imp Nat.succ_lt_succ)
  refine List.Pairwise.eq_of_mem_iff (r := (· < ·)) ((pairwise_starts file source).filter _)
    (.cons (by simp) hnewlines) fun i => ?_
  simp only [ofSource, List.mem_filter, List.mem_cons, List.mem_map, mem_startsFrom, hbytes,
    mem_newlinesBefore, decide_eq_true_eq, Nat.zero_add]
  constructor
  · rintro ⟨rfl | ⟨j, hj, rfl⟩, hle⟩
    · exact .inl rfl
    · exact .inr ⟨j, ⟨hle, hj⟩, rfl⟩
  · rintro (rfl | ⟨j, ⟨hlt, hj⟩, rfl⟩)
    · exact ⟨.inl rfl, Nat.zero_le _⟩
    · exact ⟨.inr ⟨j, hj, rfl⟩, hlt⟩

theorem getLastD_filter_starts (file source : String) (offset : Nat) :
    ((ofSource file source).starts.filter (· ≤ offset)).getLastD 0 = lineStart source offset := by
  rw [filter_starts, List.getLastD_eq_getLast?, List.getLast?_cons, List.getLast?_map, lineStart]
  cases (newlinesBefore source offset).getLast? <;> rfl

/-- The line is exact as long as a 32-bit word can say it. -/
theorem locate_line (h : span.start < 0xffffffff) :
    ((ofSource file source).locate span).line.toNat =
      1 + (newlinesBefore source span.start).length := by
  have hcount := length_newlinesBefore_le source span.start
  rw [locate_ofSource, filter_starts, List.length_cons, List.length_map, UInt32.toNat_ofNat']
  omega

/-- The column is exact as long as a 32-bit word can say it. -/
theorem locate_col (h : span.start < 0xffffffff) :
    ((ofSource file source).locate span).col.toNat =
      1 + (span.start - lineStart source span.start) := by
  rw [locate_ofSource, getLastD_filter_starts, UInt32.toNat_ofNat']
  omega

end LineIndex

def Location.position (l : Location) : Nat × Nat :=
  (l.line.toNat, l.col.toNat)

namespace LineIndex

variable {a b : Span}

/-- Of two offsets, the one further behind has the later place: in a later line, or further behind
in the same line. -/
theorem position_lt (file source : String) (hlt : a.start < b.start) (hb : b.start < 0xffffffff) :
    Prod.Lex (· < ·) (· < ·) ((ofSource file source).locate a).position
      ((ofSource file source).locate b).position := by
  rw [Location.position, Location.position, locate_line hb, locate_line (hlt.trans hb),
    locate_col hb, locate_col (hlt.trans hb)]
  obtain ⟨between, hbetween⟩ := newlinesBefore_isPrefix source hlt.le
  cases between with
  | nil =>
    rw [List.append_nil] at hbetween
    have hsame : lineStart source b.start = lineStart source a.start := by
      rw [lineStart, lineStart, hbetween]
    have := lineStart_le source a.start
    rw [hbetween, hsame]
    exact .right _ (by omega)
  | cons i more =>
    apply Prod.Lex.left
    rw [← hbetween, List.length_append, List.length_cons]
    omega

theorem position_ne_of_lt (file source : String) (hlt : a.start < b.start)
    (hb : b.start < 0xffffffff) :
    ((ofSource file source).locate a).position ≠ ((ofSource file source).locate b).position := by
  intro heq
  have hlex := position_lt file source hlt hb
  rw [heq, Prod.lex_def] at hlex
  omega

end LineIndex

namespace LineIndex

/-- A search ends in the line of the offset. -/
theorem line?_search_ofSource (file source : String) (offset : Nat) :
    ((ofSource file source).search offset).line? = some (newlinesBefore source offset).length ∧
      (ofSource file source).starts[(newlinesBefore source offset).length]? =
        some (lineStart source offset) := by
  obtain ⟨i, hlength, hline, hstart⟩ := search_ends_in_last file source offset
  rw [filter_starts, List.length_cons, List.length_map] at hlength
  rw [getLastD_filter_starts] at hstart
  rw [Nat.succ.inj hlength]
  exact ⟨hline, hstart⟩

end LineIndex

/-- Line and column of an offset up to the largest 32-bit word but one, in a text, at its end or
behind it: as many lines as there are newlines in front of it, and one; as many columns as there are
bytes since the last of them, and one. Where the span ends does not matter. Halving finds this line
and never leaves the line starts. Places stand in the order of the offsets. -/
theorem lines_and_columns_are_exact (file source : String) (span : Span)
    (h : span.start < 0xffffffff) :
    let index := LineIndex.ofSource file source
    let place := index.locate span
    place.line.toNat = 1 + (newlinesBefore source span.start).length ∧
      place.col.toNat = 1 + (span.start - lineStart source span.start) ∧
      (∃ i, (index.search span.start).line? = some i ∧ i < index.starts.length ∧
        index.starts[i]? = some (lineStart source span.start)) ∧
      index.place? span = some place ∧
      ∀ other : Span, other.start < 0xffffffff →
        (other.start ≠ span.start → (index.locate other).position ≠ place.position) ∧
        (span.start < other.start →
          Prod.Lex (· < ·) (· < ·) place.position (index.locate other).position) := by
  obtain ⟨hline, hstart⟩ := LineIndex.line?_search_ofSource file source span.start
  refine ⟨LineIndex.locate_line h, LineIndex.locate_col h,
    ⟨_, hline, (List.getElem?_eq_some_iff.mp hstart).1, hstart⟩, LineIndex.place?_eq_locate _ _,
    fun other hother => ⟨fun hne => ?_, fun hlt => LineIndex.position_lt file source hlt hother⟩⟩
  rcases Nat.lt_or_gt_of_ne hne with hlt | hgt
  · exact LineIndex.position_ne_of_lt file source hlt h
  · exact (LineIndex.position_ne_of_lt file source hgt hother).symm

/-- Two offsets in a text with an empty line and a character of two bytes: one in its last line,
with a span that ends before it starts, and one behind the text. -/
theorem lines_and_columns_behind_empty_line :
    let index := LineIndex.ofSource "demo" "é\n\nab"
    (index.locate ⟨5, 0⟩).position = (3, 2) ∧ (index.locate ⟨9, 9⟩).position = (3, 6) ∧
      index.place? ⟨5, 0⟩ = some (index.locate ⟨5, 0⟩) ∧
      Prod.Lex (· < ·) (· < ·) (index.locate ⟨5, 0⟩).position (index.locate ⟨9, 9⟩).position := by
  obtain ⟨hline, hcol, _, hplace, hother⟩ :=
    lines_and_columns_are_exact "demo" "é\n\nab" ⟨5, 0⟩ (by decide)
  obtain ⟨hline', hcol', _⟩ := lines_and_columns_are_exact "demo" "é\n\nab" ⟨9, 9⟩ (by decide)
  have hnewlines : newlinesBefore "é\n\nab" 5 = [2, 3] := by decide +kernel
  have hnewlines' : newlinesBefore "é\n\nab" 9 = [2, 3] := by decide +kernel
  refine ⟨?_, ?_, hplace, (hother ⟨9, 9⟩ (by decide)).2 (by decide)⟩
  · rw [Location.position, hline, hcol, lineStart, hnewlines]
    rfl
  · rw [Location.position, hline', hcol', lineStart, hnewlines']
    rfl

end StackEffect
