import IndieWorker.Lib.Run
import Mathlib.Logic.Function.Basic

/-!
# Many machines of one kind

A family of machines that take the events of one list, each those that carry its index.
What one of them does is what it does alone on its own events.
-/

namespace IndieWorker
namespace Run

variable {κ σ ε ο : Type} [DecidableEq κ]

/-- The machine of the index takes the event. -/
def among (step : σ → ε → Option (σ × ο)) (s : κ → σ) (x : κ × ε) : Option ((κ → σ) × ο) :=
  (step (s x.1) x.2).map fun p => (Function.update s x.1 p.1, p.2)

/-- The events of one machine. -/
def eventsOf (i : κ) (xs : List (κ × ε)) : List ε := (xs.filter fun x => x.1 = i).map Prod.snd

/-- A step of the family as a step of one machine. -/
def entryOf (i : κ) (x : Entry (κ → σ) (κ × ε) ο) : Option (Entry σ ε ο) :=
  if x.event.1 = i then some ⟨x.before i, x.event.2, x.output, x.after i⟩ else none

theorem eventsOf_cons_self (i : κ) (e : ε) (xs : List (κ × ε)) :
    eventsOf i ((i, e) :: xs) = e :: eventsOf i xs := by
  rw [eventsOf, List.filter_cons, if_pos (decide_eq_true rfl)]
  rfl

theorem eventsOf_cons_other {i j : κ} (h : j ≠ i) (e : ε) (xs : List (κ × ε)) :
    eventsOf i ((j, e) :: xs) = eventsOf i xs := by
  rw [eventsOf, List.filter_cons, if_neg (by simpa using h)]
  rfl

theorem eventsOf_append (i : κ) (xs ys : List (κ × ε)) :
    eventsOf i (xs ++ ys) = eventsOf i xs ++ eventsOf i ys := by
  rw [eventsOf, List.filter_append, List.map_append]
  rfl

theorem mem_eventsOf {i : κ} {e : ε} {xs : List (κ × ε)} : e ∈ eventsOf i xs ↔ (i, e) ∈ xs := by
  rw [eventsOf, List.mem_map]
  constructor
  · rintro ⟨⟨j, f⟩, hmem, rfl⟩
    rw [List.mem_filter, decide_eq_true_eq] at hmem
    exact hmem.2 ▸ hmem.1
  · exact fun hmem => ⟨(i, e), List.mem_filter.mpr ⟨hmem, decide_eq_true rfl⟩, rfl⟩

section Total

variable {step : σ → ε → Option (σ × ο)} (htotal : ∀ s e, (step s e).isSome)
include htotal

theorem final_among (s : κ → σ) (xs : List (κ × ε)) (i : κ) :
    final (among step) s xs i = final step (s i) (eventsOf i xs) := by
  induction xs generalizing s with
  | nil => rfl
  | cons x xs ih =>
    obtain ⟨j, e⟩ := x
    obtain ⟨⟨t, o⟩, hse⟩ := Option.isSome_iff_exists.mp (htotal (s j) e)
    have hstep : among step s (j, e) = some (Function.update s j t, o) := by
      rw [among, hse]
      rfl
    rw [final_cons hstep, ih]
    by_cases hji : j = i
    · subst hji
      rw [eventsOf_cons_self, final_cons hse, Function.update_self]
    · rw [eventsOf_cons_other hji, Function.update_of_ne (Ne.symm hji)]

theorem trace_among (s : κ → σ) (xs : List (κ × ε)) (i : κ) :
    (trace (among step) s xs).filterMap (entryOf i) = trace step (s i) (eventsOf i xs) := by
  induction xs generalizing s with
  | nil => rfl
  | cons x xs ih =>
    obtain ⟨j, e⟩ := x
    obtain ⟨⟨t, o⟩, hse⟩ := Option.isSome_iff_exists.mp (htotal (s j) e)
    have hstep : among step s (j, e) = some (Function.update s j t, o) := by
      rw [among, hse]
      rfl
    rw [trace_cons hstep, List.filterMap_cons, ih, entryOf]
    by_cases hji : j = i
    · subst hji
      dsimp only
      rw [if_pos rfl, eventsOf_cons_self, trace_cons hse, Function.update_self]
    · dsimp only
      rw [if_neg hji, eventsOf_cons_other hji, Function.update_of_ne (Ne.symm hji)]

end Total

end Run
end IndieWorker
