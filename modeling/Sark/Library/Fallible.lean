import Mathlib.Tactic

/-!
# Runs of fallible steps

A program that reads its inputs one by one and may stop with an error is a fold of a step
`σ → α → Except ε σ`. This file has the inversion rules for such runs and the rule that carries an
invariant along them.

* `Except.bind_eq_ok_iff`, `Except.toOption_bind`: a sequence succeeds when both parts do.
* `Fallible.sub`: a subtraction that must not underflow.
* `Fallible.foldlM_invariant`: an invariant on the state and the inputs read so far, kept by every
  step, holds at the end of every successful run.
-/

/-- A sequence of two fallible computations succeeds exactly when both do. -/
theorem Except.bind_eq_ok_iff {ε : Type*} {α β : Type _} {x : Except ε α} {f : α → Except ε β} {b : β} :
    (x >>= f) = .ok b ↔ ∃ a, x = .ok a ∧ f a = .ok b := by
  cases x with
  | error e => simp [bind, Except.bind]
  | ok a => simp [bind, Except.bind]

theorem Except.map_eq_ok_iff {ε α β : Type*} {x : Except ε α} {f : α → β} {b : β} :
    x.map f = .ok b ↔ ∃ a, x = .ok a ∧ f a = b := by
  cases x <;> simp [Except.map]

theorem Except.map_eq_error_iff {ε α β : Type*} {x : Except ε α} {f : α → β} {e : ε} :
    x.map f = .error e ↔ x = .error e := by
  cases x <;> simp [Except.map]

theorem Except.mapError_eq_ok_iff {ε ε' α : Type*} {x : Except ε α} {f : ε → ε'} {a : α} :
    x.mapError f = .ok a ↔ x = .ok a := by
  cases x <;> simp [Except.mapError]

@[simp]
theorem Except.toOption_ok {ε α : Type*} (a : α) : (.ok a : Except ε α).toOption = some a := rfl

@[simp]
theorem Except.toOption_error {ε α : Type*} (e : ε) : (.error e : Except ε α).toOption = none := rfl

@[simp]
theorem Except.toOption_pure {ε α : Type*} (a : α) : (pure a : Except ε α).toOption = some a := rfl

@[simp]
theorem Except.toOption_throw {ε α : Type*} (e : ε) : (throw e : Except ε α).toOption = none := rfl

@[simp]
theorem Except.toOption_map {ε α β : Type*} (x : Except ε α) (f : α → β) :
    (x.map f).toOption = x.toOption.map f := by
  cases x <;> rfl

@[simp]
theorem Except.toOption_mapError {ε ε' α : Type*} (x : Except ε α) (f : ε → ε') :
    (x.mapError f).toOption = x.toOption := by
  cases x <;> rfl

@[simp]
theorem Except.toOption_bind {ε : Type*} {α β : Type _} (x : Except ε α) (f : α → Except ε β) :
    (x >>= f).toOption = x.toOption.bind fun a => (f a).toOption := by
  cases x <;> rfl

theorem Except.toOption_eq_some_iff {ε α : Type*} {x : Except ε α} {a : α} :
    x.toOption = some a ↔ x = .ok a := by
  cases x <;> simp [Except.toOption]

namespace Fallible

variable {ε σ α : Type*} {step : σ → α → Except ε σ}

theorem foldlM_cons_eq_ok_iff {s t : σ} {a : α} {as : List α} :
    (a :: as).foldlM step s = .ok t ↔ ∃ m, step s a = .ok m ∧ as.foldlM step m = .ok t := by
  rw [List.foldlM_cons, Except.bind_eq_ok_iff]

/-- An invariant of the state and of the inputs read so far holds at the end of every run. -/
theorem foldlM_invariant (inv : σ → List α → Prop)
    (hstep : ∀ s seen a t, inv s seen → step s a = .ok t → inv t (seen ++ [a]))
    {s t : σ} {seen as : List α} (hinv : inv s seen) (hrun : as.foldlM step s = .ok t) :
    inv t (seen ++ as) := by
  induction as generalizing s seen with
  | nil =>
    obtain rfl : s = t := by simpa [pure, Except.pure] using hrun
    simpa using hinv
  | cons a as ih =>
    obtain ⟨m, hm, hrest⟩ := foldlM_cons_eq_ok_iff.mp hrun
    have hnext := ih (hstep s seen a m hinv hm) hrest
    rwa [List.append_assoc, List.singleton_append] at hnext

/-- A subtraction that the program does not check: there is no result where it underflows. -/
def sub (a b : ℕ) : Option ℕ :=
  if b ≤ a then some (a - b) else none

@[simp]
theorem sub_eq_some_iff {a b c : ℕ} : sub a b = some c ↔ b ≤ a ∧ c = a - b := by
  unfold sub
  split <;> simp_all [eq_comm]

theorem sub_of_le {a b : ℕ} (h : b ≤ a) : sub a b = some (a - b) := by
  simp only [sub, if_pos h]

end Fallible
