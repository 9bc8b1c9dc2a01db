/-
Runs of a state machine that may stop, and the history a run leaves behind.

`step s e` is the state after event `e` together with what the step answered,
or `none` where the program does not return.  A step that does not return ends
the run.  A property of whole runs is proved once per step: it is stated over
the history so far and the current state, and `history_invariant` carries it
along any list of events.
-/
import Mathlib.Algebra.Ring.Nat
import Mathlib.Data.List.Basic

namespace IndieWorker
namespace Run

/-- One step of a run. -/
structure Entry (σ ε ο : Type) where
  before : σ
  event : ε
  output : ο
  after : σ

variable {σ ε ο : Type} (step : σ → ε → Option (σ × ο))

/-- The steps taken from `s` over a list of events, in order. -/
def trace : σ → List ε → List (Entry σ ε ο)
  | _, [] => []
  | s, e :: es =>
    match step s e with
    | none => []
    | some (t, o) => ⟨s, e, o, t⟩ :: trace t es

/-- The state a run ends in. -/
def final : σ → List ε → σ
  | s, [] => s
  | s, e :: es =>
    match step s e with
    | none => s
    | some (t, _) => final t es

variable {step}

theorem trace_cons {s t : σ} {e : ε} {o : ο} (h : step s e = some (t, o)) (es : List ε) :
    trace step s (e :: es) = ⟨s, e, o, t⟩ :: trace step t es := by
  rw [trace, h]

theorem final_cons {s t : σ} {e : ε} {o : ο} (h : step s e = some (t, o)) (es : List ε) :
    final step s (e :: es) = final step t es := by
  rw [final, h]

theorem trace_stop {s : σ} {e : ε} (h : step s e = none) (es : List ε) :
    trace step s (e :: es) = [] := by
  rw [trace, h]

theorem final_stop {s : σ} {e : ε} (h : step s e = none) (es : List ε) :
    final step s (e :: es) = s := by
  rw [final, h]

/-- The rule for runs: what one step preserves of the history and the state
holds after any list of events. -/
theorem history_invariant (Inv : List (Entry σ ε ο) → σ → Prop)
    (hstep : ∀ h s e t o, Inv h s → step s e = some (t, o) → Inv (h ++ [⟨s, e, o, t⟩]) t) :
    ∀ (es : List ε) (h : List (Entry σ ε ο)) (s : σ), Inv h s →
      Inv (h ++ trace step s es) (final step s es) := by
  intro es
  induction es with
  | nil =>
    intro h s hs
    simpa [trace, final] using hs
  | cons e es ih =>
    intro h s hs
    rcases hse : step s e with _ | ⟨t, o⟩
    · rw [trace_stop hse, final_stop hse, List.append_nil]
      exact hs
    · rw [trace_cons hse, final_cons hse]
      have := ih _ t (hstep h s e t o hs hse)
      rwa [List.append_assoc] at this

theorem history_invariant_start (Inv : List (Entry σ ε ο) → σ → Prop) {s : σ}
    (hstart : Inv [] s)
    (hstep : ∀ h s e t o, Inv h s → step s e = some (t, o) → Inv (h ++ [⟨s, e, o, t⟩]) t)
    (es : List ε) : Inv (trace step s es) (final step s es) := by
  simpa using history_invariant Inv hstep es [] s hstart

/-- The rule for states: what every step of a run preserves holds after each of
them.  `Ok` is what is known of the steps taken. -/
theorem state_invariant (Inv : σ → Prop) (Ok : Entry σ ε ο → Prop)
    (hstep : ∀ s e t o, Inv s → step s e = some (t, o) → Ok ⟨s, e, o, t⟩ → Inv t)
    {s : σ} (hs : Inv s) {es : List ε} (hok : ∀ x ∈ trace step s es, Ok x) :
    (∀ x ∈ trace step s es, Inv x.after) ∧ Inv (final step s es) := by
  refine history_invariant_start
    (fun h s => (∀ x ∈ h, Ok x) → (∀ x ∈ h, Inv x.after) ∧ Inv s)
    (fun _ => ⟨by simp, hs⟩) ?_ es hok
  intro h s e t o ih hse hok
  obtain ⟨hall, hs⟩ := ih fun x hx => hok x (List.mem_append_left _ hx)
  have hlast : Ok ⟨s, e, o, t⟩ := hok _ (List.mem_append_right _ (List.mem_singleton_self _))
  have ht : Inv t := hstep s e t o hs hse hlast
  refine ⟨fun x hx => ?_, ht⟩
  rcases List.mem_append.mp hx with hx | hx
  · exact hall x hx
  · rw [List.mem_singleton.mp hx]
    exact ht

/-- Every entry of a run is a step the machine takes. -/
theorem step_of_mem_trace {s : σ} {es : List ε} {x : Entry σ ε ο} (hx : x ∈ trace step s es) :
    step x.before x.event = some (x.after, x.output) := by
  refine history_invariant_start
    (fun h _ => ∀ x ∈ h, step x.before x.event = some (x.after, x.output)) ?_ ?_ es x hx
  · simp
  · intro h s e t o hh hse x hx
    rcases List.mem_append.mp hx with hx | hx
    · exact hh x hx
    · rw [List.mem_singleton] at hx
      subst hx
      exact hse

/-- Every step of a history meets `P` of what came before it. -/
def Each (P : List (Entry σ ε ο) → Entry σ ε ο → Prop) (h : List (Entry σ ε ο)) : Prop :=
  ∀ before x after, h = before ++ x :: after → P before x

theorem each_nil (P : List (Entry σ ε ο) → Entry σ ε ο → Prop) : Each P [] := by
  intro before x after h
  exact absurd h.symm (List.append_ne_nil_of_right_ne_nil before (List.cons_ne_nil x after))

theorem each_concat {P : List (Entry σ ε ο) → Entry σ ε ο → Prop} {h : List (Entry σ ε ο)}
    {x : Entry σ ε ο} : Each P (h ++ [x]) ↔ Each P h ∧ P h x := by
  constructor
  · intro hall
    refine ⟨fun before y after hsplit => hall before y (after ++ [x]) ?_, hall h x [] rfl⟩
    rw [hsplit, List.append_assoc, List.cons_append]
  · intro hall before y after hsplit
    rcases List.eq_nil_or_concat after with hnil | ⟨front, z, hafter⟩
    · rw [hnil] at hsplit
      obtain ⟨rfl, hxy⟩ := List.append_inj' hsplit rfl
      cases hxy
      exact hall.2
    · rw [hafter, List.concat_eq_append, ← List.cons_append, ← List.append_assoc] at hsplit
      obtain ⟨hh, _⟩ := List.append_inj' hsplit rfl
      exact hall.1 before y front hh

/-- A run over a prefix of the events leaves a prefix of the history. -/
theorem trace_extends (s : σ) (es fs : List ε) :
    trace step s es <+: trace step s (es ++ fs) := by
  induction es generalizing s with
  | nil => exact List.nil_prefix
  | cons e es ih =>
    rw [List.cons_append]
    rcases hse : step s e with _ | ⟨t, o⟩
    · rw [trace_stop hse]
      exact List.nil_prefix
    · rw [trace_cons hse, trace_cons hse]
      exact List.cons_prefix_cons.mpr ⟨rfl, ih t⟩

section Total

variable (htotal : ∀ s e, (step s e).isSome)
include htotal

/-- A machine that always returns takes a step for every event. -/
theorem map_event_trace (s : σ) (es : List ε) : (trace step s es).map Entry.event = es := by
  induction es generalizing s with
  | nil => rfl
  | cons e es ih =>
    obtain ⟨⟨t, o⟩, hse⟩ := Option.isSome_iff_exists.mp (htotal s e)
    rw [trace_cons hse, List.map_cons, ih]

theorem final_append (s : σ) (es fs : List ε) :
    final step s (es ++ fs) = final step (final step s es) fs := by
  induction es generalizing s with
  | nil => rfl
  | cons e es ih =>
    obtain ⟨⟨t, o⟩, hse⟩ := Option.isSome_iff_exists.mp (htotal s e)
    rw [List.cons_append, final_cons hse, final_cons hse, ih]

theorem trace_append (s : σ) (es fs : List ε) :
    trace step s (es ++ fs) = trace step s es ++ trace step (final step s es) fs := by
  induction es generalizing s with
  | nil => rfl
  | cons e es ih =>
    obtain ⟨⟨t, o⟩, hse⟩ := Option.isSome_iff_exists.mp (htotal s e)
    rw [List.cons_append, trace_cons hse, trace_cons hse, final_cons hse, ih, List.cons_append]

/-- The last event of a run adds the last entry of its history. -/
theorem trace_concat {s t : σ} {es : List ε} {e : ε} {o : ο}
    (h : step (final step s es) e = some (t, o)) :
    trace step s (es ++ [e]) = trace step s es ++ [⟨final step s es, e, o, t⟩] := by
  rw [trace_append htotal, trace_cons h]
  rfl

theorem final_concat {s t : σ} {es : List ε} {e : ε} {o : ο}
    (h : step (final step s es) e = some (t, o)) : final step s (es ++ [e]) = t := by
  rw [final_append htotal, final_cons h]
  rfl

end Total

end Run
end IndieWorker
