import StackEffect.Location

/-! # Lines found by halving

The line starts of a text increase, so the line of an offset is found by halving the range in which
it can be. A search ends at an entry that is the wanted one, or at the position at which the wanted
one would have to be put in. Since the first line starts at offset zero, a search always ends in a
line.
-/

namespace StackEffect

/-- Where a search among increasing numbers ends. -/
inductive SearchEnd
  /-- At the wanted number. -/
  | found (i : Nat)
  /-- Where the wanted number would have to be put in. -/
  | missing (next : Nat)
deriving DecidableEq, Repr

namespace SearchEnd

/-- The line in which a search for an offset ends, counted from zero: the one that starts there, or
the one before the next. In front of the first line there is none. -/
def line? : SearchEnd → Option Nat
  | found i => some i
  | missing 0 => none
  | missing (next + 1) => some next

end SearchEnd

namespace LineIndex

/-- Looks for a number among those at the positions from `lo` up to, and without, `hi`. -/
def searchBetween (starts : Array Nat) (wanted lo hi : Nat) (h : hi ≤ starts.size) : SearchEnd :=
  if hlt : lo < hi then
    let mid := lo + (hi - lo) / 2
    if starts[mid] < wanted then searchBetween starts wanted (mid + 1) hi h
    else if wanted < starts[mid] then searchBetween starts wanted lo mid (by omega)
    else .found mid
  else .missing lo
termination_by hi - lo

def search (index : LineIndex) (offset : Nat) : SearchEnd :=
  searchBetween index.starts.toArray offset 0 index.starts.toArray.size (Nat.le_refl _)

/-- The place of a span, with line and column as 32-bit words: where the span ends does not matter,
and the column of a span far past the end of the text wraps around. There is none if the search
leaves the line starts. -/
def place? (index : LineIndex) (span : Span) : Option Location := do
  let line ← (index.search span.start).line?
  let start ← index.starts[line]?
  return ⟨index.file, UInt32.ofNat line + 1, UInt32.ofNat (span.start - start) + 1, span⟩

/-- A search among numbers of which the first is not above the wanted one ends at one of them, or
behind one of them. -/
theorem line?_searchBetween {starts : Array Nat} {wanted lo hi : Nat} (h : hi ≤ starts.size)
    (hfirst : ∀ hpos : 0 < starts.size, starts[0] ≤ wanted) (hle : lo ≤ hi) (hpos : 0 < hi) :
    ∃ i, (searchBetween starts wanted lo hi h).line? = some i ∧ i < starts.size := by
  fun_induction searchBetween starts wanted lo hi h with
  | case1 lo hi h hlt mid _ ih => exact ih (by omega) hpos
  | case2 lo hi h hlt mid _ habove ih =>
    refine ih (by omega) (Nat.pos_of_ne_zero fun hmid => ?_)
    have := hfirst (by omega)
    simp only [hmid] at habove
    omega
  | case3 lo hi h hlt mid => exact ⟨mid, rfl, by omega⟩
  | case4 lo hi h hge =>
    obtain ⟨i, rfl⟩ : ∃ i, lo = i + 1 := ⟨lo - 1, by omega⟩
    exact ⟨i, rfl, by omega⟩

theorem line?_search (index : LineIndex) (offset : Nat) :
    ∃ i, (index.search offset).line? = some i ∧ i < index.starts.length := by
  obtain ⟨hpos, hzero⟩ := List.getElem?_eq_some_iff.mp index.first
  refine line?_searchBetween _ (fun _ => ?_) (Nat.zero_le _) hpos
  rw [List.getElem_toArray, hzero]
  exact Nat.zero_le _

theorem isSome_place? (index : LineIndex) (span : Span) : (index.place? span).isSome := by
  obtain ⟨i, hline, hi⟩ := index.line?_search span.start
  simp [place?, hline, List.getElem?_eq_getElem hi]

def locate (index : LineIndex) (span : Span) : Location :=
  (index.place? span).get (index.isSome_place? span)

end LineIndex

end StackEffect
