import StackEffect.Diagnostic.Cause

/-! # Computations that may be rejected

How a sequence of steps goes on when its first step is known, and what the steps of a successful
sequence gave.
-/

namespace StackEffect

variable {α β : Type}

@[simp] theorem ok_bind (a : α) (f : α → Except Fault β) : (Except.ok a >>= f) = f a := rfl

@[simp] theorem error_bind (e : Fault) (f : α → Except Fault β) :
    (Except.error e >>= f) = .error e := rfl

@[simp] theorem pure_eq_ok (a : α) : (pure a : Except Fault α) = .ok a := rfl

theorem bind_eq_ok {x : Except Fault α} {f : α → Except Fault β} {b : β} (h : x >>= f = .ok b) :
    ∃ a, x = .ok a ∧ f a = .ok b := by
  cases x with
  | error e => cases h
  | ok a => exact ⟨a, rfl, h⟩

theorem map_eq_ok {x : Except Fault α} {f : α → β} {b : β} (h : x.map f = .ok b) :
    ∃ a, x = .ok a ∧ f a = b := by
  cases x with
  | error e => cases h
  | ok a => exact ⟨a, rfl, Except.ok.inj h⟩

theorem toOption_eq_some {x : Except Fault α} {a : α} : x.toOption = some a ↔ x = .ok a := by
  cases x with
  | error e => exact ⟨(nomatch ·), (nomatch ·)⟩
  | ok b => exact ⟨fun h => congrArg Except.ok (Option.some.inj h),
      fun h => congrArg some (Except.ok.inj h)⟩

theorem mapM_cons_ok {f : α → Except Fault β} {a : α} {as : List α} {bs : List β}
    (h : (a :: as).mapM f = .ok bs) :
    ∃ b bs', f a = .ok b ∧ as.mapM f = .ok bs' ∧ bs = b :: bs' := by
  rw [List.mapM_cons] at h
  obtain ⟨b, hb, h⟩ := bind_eq_ok h
  obtain ⟨bs', hbs, h⟩ := bind_eq_ok h
  exact ⟨b, bs', hb, hbs, (Except.ok.inj h).symm⟩

theorem length_of_mapM {f : α → Except Fault β} {as : List α} {bs : List β}
    (h : as.mapM f = .ok bs) : bs.length = as.length := by
  induction as generalizing bs with
  | nil =>
    cases h
    rfl
  | cons a as ih =>
    obtain ⟨b, bs', _, hbs, rfl⟩ := mapM_cons_ok h
    rw [List.length_cons, List.length_cons, ih hbs]

/-- A sequence of computations is rejected where the first of them is. -/
theorem mapM_eq_error_iff {f : α → Except Fault β} {as : List α} {e : Fault} :
    as.mapM f = .error e ↔ ∃ before a after, as = before ++ a :: after ∧
      (∀ b ∈ before, ∃ c, f b = .ok c) ∧ f a = .error e := by
  constructor
  · intro h
    induction as with
    | nil => cases h
    | cons a as ih =>
      rw [List.mapM_cons] at h
      cases ha : f a with
      | error e' =>
        rw [ha] at h
        cases h
        exact ⟨[], a, as, rfl, by simp, ha⟩
      | ok b =>
        cases has : as.mapM f with
        | ok bs =>
          rw [ha, has] at h
          cases h
        | error e' =>
          rw [ha, has] at h
          cases h
          obtain ⟨before, a', after, rfl, hbefore, ha'⟩ := ih has
          exact ⟨a :: before, a', after, rfl, List.forall_mem_cons.mpr ⟨⟨b, ha⟩, hbefore⟩, ha'⟩
  · rintro ⟨before, a, after, rfl, hbefore, ha⟩
    induction before with
    | nil => rw [List.nil_append, List.mapM_cons, ha, error_bind]
    | cons b before ih =>
      obtain ⟨⟨c, hc⟩, hbefore⟩ := List.forall_mem_cons.mp hbefore
      rw [List.cons_append, List.mapM_cons, hc, ok_bind, ih hbefore, error_bind]

/-- One computation gives every result that another gives. -/
def Keeps (x y : Except Fault α) : Prop :=
  ∀ a, x = .ok a → y = .ok a

namespace Keeps

theorem refl (x : Except Fault α) : Keeps x x := fun _ h => h

theorem error (f : Fault) (y : Except Fault α) : Keeps (.error f) y := nofun

theorem bind {x y : Except Fault α} {f g : α → Except Fault β} (hx : Keeps x y)
    (hf : ∀ a, x = .ok a → Keeps (f a) (g a)) : Keeps (x >>= f) (y >>= g) := by
  intro b hb
  obtain ⟨a, ha, hb⟩ := bind_eq_ok hb
  rw [hx a ha, ok_bind]
  exact hf a ha b hb

end Keeps

@[simp] theorem Cause.fault_cause (c : Cause) (loc : Location) : (c.fault loc).cause = c := rfl

@[simp] theorem Fault.note_cause (f : Fault) (remark : Remark) (loc : Location) :
    (f.note remark loc).cause = f.cause := rfl

end StackEffect
