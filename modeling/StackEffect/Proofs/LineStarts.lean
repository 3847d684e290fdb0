import Mathlib.Data.List.Sort
import StackEffect.Location.Search

/-! # The lines that start up to an offset

Line starts increase, so halving separates those up to an offset from those above it. The line of an
offset is the last one that starts up to it, and its number is the number of these lines.
-/

namespace StackEffect

namespace SearchEnd

/-- The number of entries that a search leaves behind: all that are not above the wanted one. -/
def behind : SearchEnd → Nat
  | found i => i + 1
  | missing next => next

theorem line?_of_behind {e : SearchEnd} {i : Nat} (h : e.behind = i + 1) : e.line? = some i := by
  cases e with
  | found j => rw [line?, Nat.succ.inj h]
  | missing next =>
    obtain rfl : next = i + 1 := h
    rfl

end SearchEnd

namespace LineIndex

theorem lt_of_mem_startsFrom {pos i : Nat} {cs : List Char} (h : i ∈ startsFrom pos cs) :
    pos < i := by
  induction cs generalizing pos with
  | nil => simp [startsFrom] at h
  | cons c cs ih =>
    unfold startsFrom at h
    split at h
    · rcases List.mem_cons.mp h with rfl | h
      · omega
      · have := ih h
        omega
    · have := ih h
      have := c.utf8Size_pos
      omega

theorem pairwise_startsFrom (pos : Nat) (cs : List Char) :
    (startsFrom pos cs).Pairwise (· < ·) := by
  induction cs generalizing pos with
  | nil => exact .nil
  | cons c cs ih =>
    unfold startsFrom
    split
    · exact .cons (fun _ => lt_of_mem_startsFrom) (ih _)
    · exact ih _

theorem pairwise_starts (file source : String) : (ofSource file source).starts.Pairwise (· < ·) :=
  .cons (fun _ => lt_of_mem_startsFrom) (pairwise_startsFrom 0 _)

/-! ## Halving -/

/-- A search in which all entries in front of `lo` are below the wanted number, and all from `hi` on
above it, separates the entries up to the wanted number from those above it. -/
theorem searchBetween_separates {starts : Array Nat} {wanted lo hi : Nat} (h : hi ≤ starts.size)
    (hmono : ∀ (i k : Nat) (_ : i < starts.size) (_ : k < starts.size), i < k →
      starts[i] < starts[k])
    (hlo : ∀ (j : Nat) (hj : j < starts.size), j < lo → starts[j] < wanted)
    (hhi : ∀ (j : Nat) (hj : j < starts.size), hi ≤ j → wanted < starts[j])
    (j : Nat) (hj : j < starts.size) :
    starts[j] ≤ wanted ↔ j < (searchBetween starts wanted lo hi h).behind := by
  fun_induction searchBetween starts wanted lo hi h with
  | case1 lo hi h hlt mid hbelow ih =>
    refine ih (fun k hk hkmid => ?_) hhi
    rcases Nat.lt_succ_iff_lt_or_eq.mp hkmid with hkmid | rfl
    · exact (hmono k mid hk _ hkmid).trans hbelow
    · exact hbelow
  | case2 lo hi h hlt mid _ habove ih =>
    refine ih hlo fun k hk hmidk => ?_
    rcases Nat.lt_or_eq_of_le hmidk with hmidk | rfl
    · exact habove.trans (hmono mid k _ hk hmidk)
    · exact habove
  | case3 lo hi h hlt mid hbelow habove =>
    have hmid : starts[mid] = wanted := by omega
    rw [SearchEnd.behind, Nat.lt_succ_iff, ← hmid]
    refine ⟨fun hle => ?_, fun hle => ?_⟩
    · by_contra hlt
      have := hmono mid j (by omega) hj (by omega)
      omega
    · rcases Nat.lt_or_eq_of_le hle with hlt | rfl
      · exact (hmono j mid hj _ hlt).le
      · exact Nat.le_refl _
  | case4 lo hi h hle =>
    rw [SearchEnd.behind]
    refine ⟨fun hbelow => ?_, fun hlt => (hlo j hj hlt).le⟩
    by_contra hnot
    have := hhi j hj (by omega)
    omega

theorem behind_searchBetween_le {starts : Array Nat} {wanted lo hi : Nat} (h : hi ≤ starts.size)
    (hle : lo ≤ hi) : (searchBetween starts wanted lo hi h).behind ≤ hi := by
  fun_induction searchBetween starts wanted lo hi h with
  | case1 lo hi h hlt mid _ ih => exact ih (by omega)
  | case2 lo hi h hlt mid _ _ ih => exact (ih (by omega)).trans (by omega)
  | case3 lo hi h hlt mid =>
    rw [SearchEnd.behind]
    omega
  | case4 lo hi h => exact hle

/-- The entries that a search leaves behind are the lines that start up to the offset. -/
theorem take_behind_search (file source : String) (offset : Nat) :
    (ofSource file source).starts.take ((ofSource file source).search offset).behind =
      (ofSource file source).starts.filter (· ≤ offset) := by
  have hsearch : ∀ (j : Nat) (hj : j < (ofSource file source).starts.toArray.size),
      (ofSource file source).starts.toArray[j] ≤ offset ↔
        j < ((ofSource file source).search offset).behind :=
    searchBetween_separates _ (List.pairwise_iff_getElem.mp (pairwise_starts file source))
      (fun j _ hj => absurd hj (Nat.not_lt_zero j)) (fun j hj hsize => absurd hj (by omega))
  generalize ((ofSource file source).search offset).behind = n at hsearch ⊢
  generalize (ofSource file source).starts = starts at hsearch ⊢
  have hbehind : (starts.take n).filter (· ≤ offset) = starts.take n := by
    rw [List.filter_eq_self]
    intro x hx
    obtain ⟨j, hj, rfl⟩ := List.mem_take_iff_getElem.mp hx
    rw [decide_eq_true_eq, ← List.getElem_toArray]
    exact (hsearch j (by rw [List.size_toArray]; omega)).mpr (by omega)
  have habove : (starts.drop n).filter (· ≤ offset) = [] := by
    rw [List.filter_eq_nil_iff]
    intro x hx
    obtain ⟨j, hj, rfl⟩ := List.mem_drop_iff_getElem.mp hx
    rw [decide_eq_true_eq, ← List.getElem_toArray]
    exact (hsearch (n + j) (by rw [List.size_toArray]; omega)).not.mpr (by omega)
  conv_rhs => rw [← List.take_append_drop n starts, List.filter_append, hbehind, habove]
  exact (List.append_nil _).symm

/-- A search for an offset ends in the last line that starts up to it. -/
theorem search_ends_in_last (file source : String) (offset : Nat) :
    ∃ i, ((ofSource file source).starts.filter (· ≤ offset)).length = i + 1 ∧
      ((ofSource file source).search offset).line? = some i ∧
      (ofSource file source).starts[i]? =
        some (((ofSource file source).starts.filter (· ≤ offset)).getLastD 0) := by
  have htake := take_behind_search file source offset
  have hle : ((ofSource file source).search offset).behind ≤ (ofSource file source).starts.length :=
    behind_searchBetween_le _ (Nat.zero_le _)
  have hlength := congrArg List.length htake
  rw [List.length_take, Nat.min_eq_left hle] at hlength
  obtain ⟨i, hi⟩ : ∃ i, ((ofSource file source).starts.filter (· ≤ offset)).length = i + 1 :=
    ⟨_, rfl⟩
  refine ⟨i, hi, SearchEnd.line?_of_behind (hlength.trans hi), ?_⟩
  have hlast := List.getLast?_eq_getElem? (l := (ofSource file source).starts.filter (· ≤ offset))
  rw [hi, Nat.add_sub_cancel] at hlast
  have hsome : i < ((ofSource file source).starts.filter (· ≤ offset)).length := by omega
  rw [List.getLastD_eq_getLast?, hlast, ← htake, List.getElem?_take_of_lt (by omega)]
  rw [← htake, List.length_take] at hsome
  rw [List.getElem?_eq_getElem (by omega), Option.getD_some]

theorem place?_eq_locate (index : LineIndex) (span : Span) :
    index.place? span = some (index.locate span) :=
  (Option.some_get _).symm

theorem locate_eq (index : LineIndex) (span : Span) :
    ∃ line start, index.locate span =
      ⟨index.file, UInt32.ofNat line + 1, UInt32.ofNat (span.start - start) + 1, span⟩ := by
  obtain ⟨line, hline, hlt⟩ := index.line?_search span.start
  refine ⟨line, index.starts[line], Option.some.inj ?_⟩
  rw [← place?_eq_locate]
  simp [place?, hline, hlt]

@[simp] theorem file_locate (index : LineIndex) (span : Span) :
    (index.locate span).file = index.file := by
  obtain ⟨line, start, h⟩ := index.locate_eq span
  rw [h]

@[simp] theorem span_locate (index : LineIndex) (span : Span) :
    (index.locate span).span = span := by
  obtain ⟨line, start, h⟩ := index.locate_eq span
  rw [h]

/-- Halving gives the places that are found by going through all line starts. -/
theorem locate_ofSource (file source : String) (span : Span) :
    (ofSource file source).locate span =
      ⟨file, UInt32.ofNat ((ofSource file source).starts.filter (· ≤ span.start)).length,
        UInt32.ofNat (span.start -
          ((ofSource file source).starts.filter (· ≤ span.start)).getLastD 0 + 1), span⟩ := by
  obtain ⟨i, hlength, hline, hstart⟩ := search_ends_in_last file source span.start
  apply Option.some.inj
  rw [← place?_eq_locate, hlength, UInt32.ofNat_add, UInt32.ofNat_add]
  simp only [place?, hline, hstart, Option.bind_eq_bind, Option.bind_some]
  rfl

end LineIndex

end StackEffect
