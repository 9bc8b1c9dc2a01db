/-
Loops that write one place a turn.

A loop over places may read, at each turn, the place it writes and whatever no turn
of the loop changes.  Such a loop does to every place it visits what a single turn
does there, however the turns are ordered, and leaves the other places alone.
-/
import Mathlib.Data.List.Basic

namespace IndieWorker
namespace InPlace

variable {σ ι β : Type} {get : σ → ι → β} {keep : σ → Prop} {new : ι → β → β} {step : σ → ι → σ}

/-- A turn writes its own place, from what stood there, and keeps what it relies
on. -/
structure Writes (get : σ → ι → β) (keep : σ → Prop) (new : ι → β → β) (step : σ → ι → σ) :
    Prop where
  keeps : ∀ s i, keep s → keep (step s i)
  self : ∀ s i, keep s → get (step s i) i = new i (get s i)
  other : ∀ s i j, keep s → j ≠ i → get (step s i) j = get s j

namespace Writes

theorem keeps_foldl (h : Writes get keep new step) (places : List ι) {s : σ} (hs : keep s) :
    keep (places.foldl step s) := by
  induction places generalizing s with
  | nil => exact hs
  | cons i places ih => exact ih (h.keeps s i hs)

/-- A place that is not visited is left alone. -/
theorem get_foldl_of_not_mem (h : Writes get keep new step) {places : List ι} {j : ι}
    (hj : j ∉ places) {s : σ} (hs : keep s) : get (places.foldl step s) j = get s j := by
  induction places generalizing s with
  | nil => rfl
  | cons i places ih =>
    rw [List.mem_cons, not_or] at hj
    rw [List.foldl_cons, ih hj.2 (h.keeps s i hs), h.other s i j hs hj.1]

/-- A place that is visited once holds what one turn writes there. -/
theorem get_foldl_of_mem (h : Writes get keep new step) {places : List ι} (hnodup : places.Nodup)
    {j : ι} (hj : j ∈ places) {s : σ} (hs : keep s) :
    get (places.foldl step s) j = new j (get s j) := by
  induction places generalizing s with
  | nil => exact absurd hj List.not_mem_nil
  | cons i places ih =>
    obtain ⟨hfirst, hrest⟩ := List.nodup_cons.mp hnodup
    rw [List.foldl_cons]
    rcases List.mem_cons.mp hj with rfl | hlater
    · rw [h.get_foldl_of_not_mem hfirst (h.keeps s j hs), h.self s j hs]
    · have hne : j ≠ i := fun heq => hfirst (heq ▸ hlater)
      rw [ih hrest hlater (h.keeps s i hs), h.other s i j hs hne]

end Writes

end InPlace
end IndieWorker
