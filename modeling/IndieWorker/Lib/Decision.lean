/-
Decisions that refuse with an error.

A decision is a chain of refusals, `if bad then .error e else …`, and of results
that are passed on.  It allows a step exactly when no refusal applies, and the
rules here read that off one link at a time.
-/
import Mathlib.Data.List.Basic

namespace IndieWorker
namespace Decision

variable {ε ε' α β : Type}

theorem refuse_eq_ok_iff {bad : Prop} [Decidable bad] {e : ε} {rest : Except ε α} {a : α} :
    (if bad then .error e else rest) = .ok a ↔ ¬ bad ∧ rest = .ok a := by
  by_cases h : bad
  · simp [h]
  · simp [h]

/-- The same where the step may also not return. -/
theorem refuse_eq_some_ok_iff {bad : Prop} [Decidable bad] {e : ε} {rest : Option (Except ε α)}
    {a : α} :
    (if bad then some (.error e) else rest) = some (.ok a) ↔ ¬ bad ∧ rest = some (.ok a) := by
  by_cases h : bad
  · simp [h]
  · simp [h]

theorem ok_bind (a : α) (f : α → Except ε β) : (.ok a >>= f) = f a := rfl

theorem bind_eq_ok_iff {x : Except ε α} {f : α → Except ε β} {b : β} :
    (x >>= f) = .ok b ↔ ∃ a, x = .ok a ∧ f a = .ok b := by
  cases x with
  | error e => simp [bind, Except.bind]
  | ok a => simp [bind, Except.bind]

theorem mapError_eq_ok_iff {x : Except ε α} {f : ε → ε'} {a : α} :
    x.mapError f = .ok a ↔ x = .ok a := by
  cases x with
  | error e => simp [Except.mapError]
  | ok a' => simp [Except.mapError]

end Decision
end IndieWorker
