/-
Two runs that differ in what is masked.

A stage is a step of a program that may refuse.  `Masks erase f g` says that `g`
does on erased states what `f` does on whole ones, so that a refusal of `f` and the
erasure of its result depend on what is not erased alone.
-/
import Mathlib.Data.List.Basic

namespace IndieWorker
namespace Masking

variable {ε σ : Type} (erase : σ → σ)

def Masks (f g : σ → Except ε σ) : Prop := ∀ s, (f s).map erase = g (erase s)

variable {erase}

theorem Masks.andThen {f g f' g' : σ → Except ε σ} (h : Masks erase f g)
    (h' : Masks erase f' g') : Masks erase (fun s => f s >>= f') (fun s => g s >>= g') := by
  intro s
  show (f s >>= f').map erase = g (erase s) >>= g'
  rw [← h s]
  cases f s with
  | error e => rfl
  | ok a => exact h' a

/-- A stage that branches on what is not erased. -/
theorem Masks.ite {p : σ → Prop} [DecidablePred p] {f g f' g' : σ → Except ε σ}
    (hp : ∀ s, p (erase s) ↔ p s) (h : Masks erase f g) (h' : Masks erase f' g') :
    Masks erase (fun s => if p s then f s else f' s) (fun s => if p s then g s else g' s) := by
  intro s
  dsimp only
  by_cases hs : p s
  · rw [if_pos hs, if_pos ((hp s).mpr hs)]
    exact h s
  · rw [if_neg hs, if_neg (fun h => hs ((hp s).mp h))]
    exact h' s

theorem masks_error (e : ε) : Masks erase (fun _ => .error e) (fun _ => .error e) := fun _ => rfl

/-- A stage that refuses by what is not erased. -/
theorem Masks.guard {bad : σ → Prop} [DecidablePred bad] {e : ε} {f g : σ → Except ε σ}
    (hbad : ∀ s, bad (erase s) ↔ bad s) (h : Masks erase f g) :
    Masks erase (fun s => if bad s then .error e else f s)
      (fun s => if bad s then .error e else g s) :=
  Masks.ite hbad (masks_error e) h

theorem masks_ok : Masks erase (fun s => (.ok s : Except ε σ)) (fun s => .ok s) := fun _ => rfl

/-- Runs with one erased outcome refuse alike, or end in states with one erasure. -/
theorem outcome_of_map_eq {x y : Except ε σ} (h : x.map erase = y.map erase) :
    (∃ e, x = .error e ∧ y = .error e) ∨ ∃ a b, x = .ok a ∧ y = .ok b ∧ erase a = erase b := by
  cases x with
  | error e =>
    cases y with
    | error e' =>
      have he : e = e' := Except.error.inj h
      exact Or.inl ⟨e, rfl, he ▸ rfl⟩
    | ok b => cases h
  | ok a =>
    cases y with
    | error e => cases h
    | ok b => exact Or.inr ⟨a, b, rfl, rfl, Except.ok.inj h⟩

end Masking
end IndieWorker
