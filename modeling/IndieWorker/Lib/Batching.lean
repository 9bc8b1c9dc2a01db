/-
A buffer that is emptied in batches.

An item is added to what is held, or what is held becomes a batch and the item
starts the next one, or the item is turned away.  Nothing taken in is lost or
reordered, and limits that every move respects hold of every batch.
-/
import Mathlib.Data.List.Basic

namespace IndieWorker
namespace Batching

variable {α : Type}

structure State (α : Type) where
  emitted : List (List α)
  held : List α

/-- One step, and the item it takes in. -/
inductive Move (Fits : List α → Prop) : State α → Option α → State α → Prop where
  | append {s : State α} {a : α} (h : Fits (s.held ++ [a])) :
      Move Fits s (some a) ⟨s.emitted, s.held ++ [a]⟩
  | flush {s : State α} {a : α} (hne : s.held ≠ []) (h : Fits [a]) :
      Move Fits s (some a) ⟨s.emitted ++ [s.held], [a]⟩
  | stay {s : State α} : Move Fits s none s

/-- What is held fits, and so does every batch, none of which is empty. -/
def Sound (Fits : List α → Prop) (s : State α) : Prop :=
  Fits s.held ∧ ∀ batch ∈ s.emitted, batch ≠ [] ∧ Fits batch

/-- Everything taken in, in order. -/
def State.all (s : State α) : List α := s.emitted.flatten ++ s.held

variable {Fits : List α → Prop} {s t : State α} {a : Option α}

theorem Move.sound (h : Move Fits s a t) (hs : Sound Fits s) : Sound Fits t := by
  obtain ⟨hheld, hbatches⟩ := hs
  cases h with
  | append h => exact ⟨h, hbatches⟩
  | flush hne h =>
    refine ⟨h, fun batch hbatch => ?_⟩
    rcases List.mem_append.mp hbatch with hbatch | hbatch
    · exact hbatches batch hbatch
    · rw [List.mem_singleton.mp hbatch]
      exact ⟨hne, hheld⟩
  | stay => exact ⟨hheld, hbatches⟩

theorem Move.all_eq (h : Move Fits s a t) : t.all = s.all ++ a.toList := by
  cases h with
  | append h => exact (List.append_assoc _ _ _).symm
  | flush hne h =>
    show (s.emitted ++ [s.held]).flatten ++ _ = _
    rw [List.flatten_append, List.flatten_singleton]
    rfl
  | stay => exact (List.append_nil _).symm

end Batching
end IndieWorker
