import StackEffect.Proofs.Locality

/-! # Expressions

A constant expression is what stands in front of an `end`. Its tokens change the stack one after the
other, so it folds to the stack that all of them leave. A token that goes through on a stack goes
through on every stack with more below, and leaves alone what is below. So an expression that folds
to some values pushes them wherever it stands.
-/

namespace StackEffect

/-- The first `end` among some tokens. -/
theorem HasEnd.exists_first {ts : List Token} (h : HasEnd ts) :
    ∃ e last tail, ts = e ++ last :: tail ∧ last.kind = .keyword .endKw ∧ ¬ HasEnd e := by
  induction ts with
  | nil => exact absurd rfl h.ne_nil
  | cons t ts ih =>
    by_cases ht : t.kind = .keyword .endKw
    · exact ⟨[], t, ts, rfl, ht, fun hend => hend.ne_nil rfl⟩
    · obtain ⟨e, last, tail, rfl, hlast, he⟩ := ih (h.tail ht)
      exact ⟨t :: e, last, tail, rfl, hlast, fun hend => he (hend.tail ht)⟩

namespace Fold

variable {sym : Symbols} {eof : Location} {st st' : List Value} {t : Token} {e ts : List Token}

/-! ## Tokens in front of an `end` -/

def evaluate (sym : Symbols) : List Value → List Token → Except Fault (List Value)
  | st, [] => .ok st
  | st, t :: ts => token sym t st >>= fun st => evaluate sym st ts

theorem not_hasEnd_of_evaluate (h : evaluate sym st e = .ok st') : ¬ HasEnd e := by
  induction e generalizing st with
  | nil => exact fun hend => hend.ne_nil rfl
  | cons t ts ih =>
    obtain ⟨next, hnext, h⟩ := bind_eq_ok h
    intro hend
    refine ih h (hend.tail fun hk => ?_)
    rw [token, hk] at hnext
    cases hnext

theorem run_evaluate (he : ¬ HasEnd e) (count : Nat) (rest : List Token) :
    run sym eof st count (e ++ rest) =
      evaluate sym st e >>= fun st => run sym eof st (count + e.length) rest := by
  induction e generalizing st count with
  | nil => rfl
  | cons t e ih =>
    have ht : t.kind ≠ .keyword .endKw := fun hk => he ⟨t, List.mem_cons_self, hk⟩
    simp only [List.cons_append, run, if_neg ht, evaluate, List.length_cons]
    cases token sym t st with
    | error f => rfl
    | ok next =>
      rw [ok_bind, ← Nat.add_assoc, Nat.add_right_comm]
      exact ih (fun hend => he (hend.cons t)) (count + 1)

theorem run_of_evaluate (h : evaluate sym st e = .ok st') (count : Nat) (rest : List Token) :
    run sym eof st count (e ++ rest) = run sym eof st' (count + e.length) rest := by
  rw [run_evaluate (not_hasEnd_of_evaluate h), h, ok_bind]

/-- What is folded is the tokens in front of the first `end`. -/
theorem run_eq_ok_iff {count : Nat} {folded : Folded} :
    run sym eof st count ts = .ok folded ↔ ∃ e last tail st', ts = e ++ last :: tail ∧
      last.kind = .keyword .endKw ∧ evaluate sym st e = .ok st' ∧
      folded = ⟨st'.reverse, count + e.length + 1⟩ := by
  constructor
  · intro h
    obtain ⟨e, last, tail, rfl, hlast, he⟩ := (hasEnd_of_run h).1.exists_first
    rw [run_evaluate he] at h
    obtain ⟨st', hst', h⟩ := bind_eq_ok h
    rw [run, if_pos hlast] at h
    cases h
    exact ⟨e, last, tail, st', rfl, hlast, hst', rfl⟩
  · rintro ⟨e, last, tail, st', rfl, hlast, hst', rfl⟩
    rw [run_of_evaluate hst', run, if_pos hlast]

/-! ## What lies below -/

theorem binary_frame {word : String} {loc : Location} {f : Value → Value → Except Fault Value}
    (h : binary sym word loc f st = .ok st') (below : List Value) :
    binary sym word loc f (st ++ below) = .ok (st' ++ below) := by
  match st with
  | [] | [_] => cases h
  | b :: a :: st =>
    simp only [binary] at h
    split at h
    · rename_i hty
      obtain ⟨v, hv, rfl⟩ := map_eq_ok h
      simp [binary, hty, hv, Except.map]
    · cases h

theorem intrinsic?_frame {loc : Location} {i : Intrinsic}
    {effect : List Value → Except Fault (List Value)} (hi : intrinsic? sym loc i = some effect)
    (h : effect st = .ok st') (below : List Value) :
    effect (st ++ below) = .ok (st' ++ below) := by
  cases i with
  | dup | drop =>
    cases hi
    match st with
    | [] => cases h
    | a :: st =>
      cases h
      rfl
  | swap | dupUnder =>
    cases hi
    match st with
    | [] | [_] => cases h
    | b :: a :: st =>
      cases h
      rfl
  | rot =>
    cases hi
    match st with
    | [] | [_] | [_, _] => cases h
    | c :: b :: a :: st =>
      cases h
      rfl
  | add | sub | mul | eq | ne =>
    cases hi
    exact binary_frame h below
  | _ => cases hi

theorem word_frame {text : String} {loc : Location} (h : word sym text loc st = .ok st')
    (below : List Value) : word sym text loc (st ++ below) = .ok (st' ++ below) := by
  unfold word at h ⊢
  split at h
  · rename_i effect heffect
    obtain ⟨i, _, hi⟩ := Option.bind_eq_some_iff.mp heffect
    exact intrinsic?_frame hi h below
  · split at h
    · unfold cast at h ⊢
      cases hty : sym.castTarget? _ with
      | none => simp [hty] at h
      | some ty =>
        cases st with
        | nil => simp [hty, underflow] at h
        | cons v st =>
          simp only [hty] at h
          cases h
          rfl
    · unfold constant at h ⊢
      split at h
      · cases h
        simp
      · split at h
        · cases h
          rfl
        · cases h

/-- A token neither reads nor changes what lies below the values that it needs. -/
theorem token_frame (h : token sym t st = .ok st') (below : List Value) :
    token sym t (st ++ below) = .ok (st' ++ below) := by
  unfold token at h ⊢
  cases hk : t.kind with
  | int | bool | ptr =>
    simp only [hk] at h ⊢
    cases h
    rfl
  | word text =>
    simp only [hk] at h ⊢
    exact word_frame h below
  | keyword | str =>
    simp only [hk] at h
    cases h

theorem evaluate_frame (h : evaluate sym st e = .ok st') (below : List Value) :
    evaluate sym (st ++ below) e = .ok (st' ++ below) := by
  induction e generalizing st with
  | nil =>
    cases h
    rfl
  | cons t ts ih =>
    obtain ⟨next, hnext, h⟩ := bind_eq_ok h
    rw [evaluate, token_frame hnext, ok_bind]
    exact ih h

end Fold

end StackEffect
