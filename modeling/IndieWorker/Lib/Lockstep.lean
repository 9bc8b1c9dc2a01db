import IndieWorker.Lib.Run
import Mathlib.Data.List.Destutter

/-!
# Lockstep

Two machines in lockstep: reading a state and an event of the first in the
terms of the second turns each step of the first into a step of the second.  The
answer may be read in the light of the state it was given in.  The runs of the
two machines then go the same way.

Where the states of the second hold less, a relation takes the place of the reading:
related machines give the same answers.

The last part is about one machine and an event it hears twice in a row: where
the repetition changes nothing, a run does not depend on how often each event is
repeated.
-/

namespace IndieWorker
namespace Run

section Lockstep

variable {σ ε ο σ' ε' ο' : Type}

/-- A reading of the machine `step` in the terms of the machine `step'`. -/
structure Lockstep (step : σ → ε → Option (σ × ο)) (step' : σ' → ε' → Option (σ' × ο')) where
  state : σ → σ'
  event : ε → ε'
  answer : σ → ο → ο'
  agrees : ∀ s e, step' (state s) (event e) = (step s e).map fun (t, o) => (state t, answer s o)

namespace Lockstep

variable {step : σ → ε → Option (σ × ο)} {step' : σ' → ε' → Option (σ' × ο')}
  (L : Lockstep step step')

def entry (x : Entry σ ε ο) : Entry σ' ε' ο' :=
  ⟨L.state x.before, L.event x.event, L.answer x.before x.output, L.state x.after⟩

theorem trace_eq (s : σ) (es : List ε) :
    trace step' (L.state s) (es.map L.event) = (trace step s es).map L.entry := by
  induction es generalizing s with
  | nil => rfl
  | cons e es ih =>
    have hagrees := L.agrees s e
    rw [List.map_cons]
    rcases hse : step s e with _ | ⟨t, o⟩
    · rw [hse] at hagrees
      rw [trace_stop hse, trace_stop hagrees]
      rfl
    · rw [hse] at hagrees
      rw [trace_cons hse, trace_cons hagrees, ih, List.map_cons]
      rfl

theorem final_eq (s : σ) (es : List ε) :
    final step' (L.state s) (es.map L.event) = L.state (final step s es) := by
  induction es generalizing s with
  | nil => rfl
  | cons e es ih =>
    have hagrees := L.agrees s e
    rw [List.map_cons]
    rcases hse : step s e with _ | ⟨t, o⟩
    · rw [hse] at hagrees
      rw [final_stop hse, final_stop hagrees]
    · rw [hse] at hagrees
      rw [final_cons hse, final_cons hagrees, ih]

/-- Over every list of events the second machine goes through the run of the
first, and ends in a state of which it tells the same. -/
def Mirrors {α : Type} (read : σ → α) (read' : σ' → α) : Prop :=
  ∀ s es,
    trace step' (L.state s) (es.map L.event) = (trace step s es).map L.entry ∧
      read' (final step' (L.state s) (es.map L.event)) = read (final step s es)

theorem mirrors {α : Type} {read : σ → α} {read' : σ' → α}
    (hread : ∀ s, read' (L.state s) = read s) : L.Mirrors read read' := by
  intro s es
  refine ⟨L.trace_eq s es, ?_⟩
  rw [L.final_eq, hread]

end Lockstep

end Lockstep

/-! ## Related states -/

section Simulation

variable {σ σ' ε ο : Type} {step : σ → ε → Option (σ × ο)} {step' : σ' → ε → Option (σ' × ο)}

/-- Related states answer every event alike and stay related. -/
def Simulates (step : σ → ε → Option (σ × ο)) (step' : σ' → ε → Option (σ' × ο))
    (R : σ → σ' → Prop) : Prop :=
  ∀ s s' e, R s s' → ∃ t t' o, step s e = some (t, o) ∧ step' s' e = some (t', o) ∧ R t t'

theorem Simulates.run {R : σ → σ' → Prop} (h : Simulates step step' R) {s : σ} {s' : σ'}
    (hs : R s s') (es : List ε) :
    (trace step s es).map Entry.output = (trace step' s' es).map Entry.output ∧
      R (final step s es) (final step' s' es) := by
  induction es generalizing s s' with
  | nil => exact ⟨rfl, hs⟩
  | cons e es ih =>
    obtain ⟨t, t', o, hstep, hstep', ht⟩ := h s s' e hs
    obtain ⟨houtputs, hfinal⟩ := ih ht
    rw [trace_cons hstep, trace_cons hstep', final_cons hstep, final_cons hstep', List.map_cons,
      List.map_cons, houtputs]
    exact ⟨rfl, hfinal⟩

end Simulation

/-! ## Repeated events -/

section Stutter

variable {σ ε ο : Type} [DecidableEq ε] {step : σ → ε → Option (σ × ο)}

/-- An event heard again at once leaves the state it led to. -/
def Settles (step : σ → ε → Option (σ × ο)) : Prop :=
  ∀ s e t o, step s e = some (t, o) → ∃ o', step t e = some (t, o')

omit [DecidableEq ε] in
theorem final_repeat (h : Settles step) (s : σ) (e : ε) (es : List ε) :
    final step s (e :: e :: es) = final step s (e :: es) := by
  rcases hse : step s e with _ | ⟨t, o⟩
  · rw [final_stop hse, final_stop hse]
  · obtain ⟨o', ho'⟩ := h s e t o hse
    rw [final_cons hse, final_cons hse, final_cons ho']

theorem final_destutter' (h : Settles step) (s : σ) (e : ε) (es : List ε) :
    final step s (es.destutter' (· ≠ ·) e) = final step s (e :: es) := by
  induction es generalizing s e with
  | nil => rfl
  | cons e' es ih =>
    by_cases he : e = e'
    · subst he
      rw [List.destutter'_cons_neg _ (by simp), ih, final_repeat h]
    · rw [List.destutter'_cons_pos _ he]
      rcases hse : step s e with _ | ⟨t, o⟩
      · rw [final_stop hse, final_stop hse]
      · rw [final_cons hse, final_cons hse, ih]

/-- A run ends where the run without the repetitions ends. -/
theorem final_destutter (h : Settles step) (s : σ) (es : List ε) :
    final step s (es.destutter (· ≠ ·)) = final step s es := by
  cases es with
  | nil => rfl
  | cons e es => exact final_destutter' h s e es

/-- Runs whose events differ only in how often each is repeated end in the same
state. -/
theorem final_eq_of_destutter_eq (h : Settles step) (s : σ) {es fs : List ε}
    (he : es.destutter (· ≠ ·) = fs.destutter (· ≠ ·)) : final step s es = final step s fs := by
  rw [← final_destutter h s es, ← final_destutter h s fs, he]

end Stutter

end Run
end IndieWorker
