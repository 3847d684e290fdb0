/-! # Changes in place

A change in place goes from one state to the next, step by step, and gives a result. It may be
refused at any step; what it has changed by then stays changed.
-/

namespace StackEffect

/-- A change of a state, which may be refused. -/
abbrev InPlace (σ : Type) := OptionT (StateM σ)

namespace InPlace

variable {σ α : Type}

theorem run_get_bind (f : σ → InPlace σ α) (s : σ) :
    OptionT.run (get >>= f) s = (f s).run s := rfl

theorem run_guard_bind (p : Prop) [Decidable p] (f : Unit → InPlace σ α) (s : σ) :
    OptionT.run (guard p >>= f) s = if p then (f ()).run s else (none, s) := by
  delta guard
  by_cases hp : p
  · rw [if_pos hp, if_pos hp]
    rfl
  · rw [if_neg hp, if_neg hp]
    rfl

end InPlace

end StackEffect
