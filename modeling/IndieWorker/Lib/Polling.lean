/-
Decoders that are fed chunks, polled for items, and stop at their first error.

`Framing.next` is such a decoder, written down for any framing.  A program's own
decoder `Refines` it when it answers every call the same; the results below say
what then holds of any schedule of calls, in terms of the one-shot parse of the
bytes that were fed.
-/
import IndieWorker.Lib.Framing
import IndieWorker.Lib.Run

namespace IndieWorker
namespace Polling

open Run

variable {σ β α ε : Type}

inductive Call (β : Type) where
  | feed (chunk : List β)
  | poll
  deriving DecidableEq, Repr

inductive Answer (α ε : Type) where
  | fed
  | polled (r : Except ε (Option α))

/-- What the decoder holds back, and whether it has failed. -/
structure State (β : Type) where
  buffer : List β
  poisoned : Bool

/-- A failed decoder takes nothing in and hands nothing out. -/
def next (F : Framing β α ε) (s : State β) : Call β → State β × Answer α ε
  | .feed chunk => (if s.poisoned then s else ⟨s.buffer ++ chunk, false⟩, .fed)
  | .poll =>
    if s.poisoned then (s, .polled (.ok none))
    else
      match F.front s.buffer with
      | .more => (s, .polled (.ok none))
      | .item a n => (⟨s.buffer.drop n, false⟩, .polled (.ok (some a)))
      | .fail e => (⟨s.buffer, true⟩, .polled (.error e))

/-- Every call of the machine is the call of `next` on what it shows. -/
structure Refines (F : Framing β α ε) (step : σ → Call β → Option (σ × Answer α ε))
    (good : σ → Prop) (view : σ → State β) : Prop where
  next : ∀ d c, good d → ∃ d', step d c = some (d', (Polling.next F (view d) c).2) ∧ good d' ∧
    view d' = (Polling.next F (view d) c).1

/-! ## Schedules -/

/-- The bytes a schedule feeds, in order. -/
def fed (calls : List (Call β)) : List β :=
  calls.flatMap fun
    | .feed chunk => chunk
    | .poll => []

/-- The items a run was handed, in order. -/
def delivered (h : List (Entry σ (Call β) (Answer α ε))) : List α :=
  h.filterMap fun x =>
    match x.output with
    | .polled (.ok a) => a
    | _ => none

/-- The error of an answer. -/
def Answer.error? : Answer α ε → Option ε
  | .polled (.error e) => some e
  | _ => none

/-- The first error a run raised. -/
def raised (h : List (Entry σ (Call β) (Answer α ε))) : Option ε :=
  h.findSome? fun x => x.output.error?

theorem fed_append (as bs : List (Call β)) : fed (as ++ bs) = fed as ++ fed bs :=
  List.flatMap_append

theorem fed_polls (calls : List (Call β)) (k : Nat) :
    fed (calls ++ List.replicate k .poll) = fed calls := by
  have hpolls : fed (List.replicate k (Call.poll : Call β)) = [] := by
    simp [fed, List.flatMap_eq_nil_iff]
  rw [fed_append, hpolls, List.append_nil]

theorem delivered_concat (h : List (Entry σ (Call β) (Answer α ε)))
    (x : Entry σ (Call β) (Answer α ε)) :
    delivered (h ++ [x]) = delivered h ++ (match x.output with
      | .polled (.ok a) => a.toList
      | _ => []) := by
  rw [delivered, List.filterMap_append]
  rcases x with ⟨_, _, _ | _ | _ | a, _⟩ <;> rfl

theorem raised_concat (h : List (Entry σ (Call β) (Answer α ε)))
    (x : Entry σ (Call β) (Answer α ε)) :
    raised (h ++ [x]) = (raised h).or x.output.error? := by
  rw [raised, List.findSome?_append]
  rcases hx : x.output.error? with _ | e
  · simp [raised, hx]
  · simp [raised, hx]

/-- Runs with the same answers hand out the same items and raise the same error. -/
theorem delivered_congr {σ' : Type} {h : List (Entry σ (Call β) (Answer α ε))}
    {h' : List (Entry σ' (Call β) (Answer α ε))}
    (heq : h.map Entry.output = h'.map Entry.output) :
    delivered h = delivered h' ∧ raised h = raised h' := by
  induction h generalizing h' with
  | nil =>
    cases h' with
    | nil => exact ⟨rfl, rfl⟩
    | cons x' h' => cases heq
  | cons x h ih =>
    cases h' with
    | nil => cases heq
    | cons x' h' =>
      rw [List.map_cons, List.map_cons, List.cons.injEq] at heq
      obtain ⟨hdelivered, hraised⟩ := ih heq.2
      rw [delivered, delivered] at hdelivered ⊢
      rw [raised, raised] at hraised ⊢
      rw [List.filterMap_cons, List.filterMap_cons, List.findSome?_cons, List.findSome?_cons,
        heq.1, hdelivered, hraised]
      exact ⟨rfl, rfl⟩

/-! ## What a schedule preserves -/

/-- What a run has handed out and raised, against the bytes it was fed and what
the decoder shows. -/
def Exact (F : Framing β α ε) (h : List (Entry σ (Call β) (Answer α ε))) (s : State β) : Prop :=
  if s.poisoned then
    ∃ w rest e, fed (h.map Entry.event) = w ++ rest ∧ F.Cuts w (delivered h) s.buffer ∧
      F.front s.buffer = .fail e ∧ raised h = some e
  else F.Cuts (fed (h.map Entry.event)) (delivered h) s.buffer ∧ raised h = none

/-- One call keeps the account. -/
theorem Exact.next {F : Framing β α ε} {h : List (Entry σ (Call β) (Answer α ε))} {s : State β}
    (hs : Exact F h s) {x : Entry σ (Call β) (Answer α ε)}
    (hx : x.output = (Polling.next F s x.event).2) :
    Exact F (h ++ [x]) (Polling.next F s x.event).1 := by
  have hfed : fed ((h ++ [x]).map Entry.event) = fed (h.map Entry.event) ++ fed [x.event] := by
    rw [List.map_append, fed_append]
    rfl
  unfold Exact at hs ⊢
  rw [hfed, delivered_concat, raised_concat, hx]
  by_cases hpoisoned : s.poisoned = true
  · rw [if_pos hpoisoned] at hs
    obtain ⟨w, rest, e, hw, hcuts, hfail, hraised⟩ := hs
    have hdead : (Polling.next F s x.event).1 = s := by
      cases x.event <;> simp [Polling.next, hpoisoned]
    rw [hdead, if_pos hpoisoned, hraised]
    refine ⟨w, rest ++ fed [x.event], e, by rw [hw, List.append_assoc], ?_, hfail, rfl⟩
    have hnone : (match (Polling.next F s x.event).2 with
        | .polled (.ok a) => a.toList
        | _ => []) = [] := by
      cases x.event <;> simp [Polling.next, hpoisoned]
    rw [hnone, List.append_nil]
    exact hcuts
  · rw [if_neg hpoisoned] at hs
    obtain ⟨hcuts, hraised⟩ := hs
    rw [hraised]
    cases x.event with
    | feed chunk =>
      have hchunk : fed [Call.feed chunk] = chunk := List.append_nil chunk
      simp only [Polling.next, hpoisoned, hchunk, List.append_nil]
      exact ⟨hcuts.append chunk, rfl⟩
    | poll =>
      have hnil : fed [(Call.poll : Call β)] = [] := rfl
      rw [hnil, List.append_nil]
      rcases hfront : F.front s.buffer with _ | ⟨a, n⟩ | e
      · simp only [Polling.next, hpoisoned, hfront, Bool.false_eq_true, if_false]
        exact ⟨by simpa using hcuts, rfl⟩
      · simp only [Polling.next, hpoisoned, hfront, Bool.false_eq_true, if_false]
        exact ⟨hcuts.concat hfront, rfl⟩
      · simp only [Polling.next, hpoisoned, hfront, Bool.false_eq_true, if_false, if_true]
        exact ⟨_, [], e, (List.append_nil _).symm, by simpa using hcuts, rfl, rfl⟩

section Refined

variable {F : Framing β α ε} {step : σ → Call β → Option (σ × Answer α ε)} {good : σ → Prop}
  {view : σ → State β} (hF : Refines F step good view) (htotal : ∀ d c, (step d c).isSome)
  {d : σ} (hgood : good d) (hstart : view d = ⟨[], false⟩)

include hF hgood hstart

/-- The account of a run. -/
theorem exact_run (calls : List (Call β)) :
    good (final step d calls) ∧ Exact F (trace step d calls) (view (final step d calls)) := by
  refine history_invariant_start (fun h s => good s ∧ Exact F h (view s)) ?_ ?_ calls
  · rw [hstart]
    exact ⟨hgood, .nil [], rfl⟩
  · intro h s c t o ⟨hs, hexact⟩ hstep
    obtain ⟨t', hstep', ht', hview⟩ := hF.next s c hs
    rw [hstep, Option.some.injEq, Prod.mk.injEq] at hstep'
    obtain ⟨rfl, ho⟩ := hstep'
    rw [hview]
    exact ⟨ht', hexact.next (x := ⟨s, c, o, t⟩) ho⟩

/-- What a poll answers is decided by what the decoder shows. -/
theorem poll_eq (calls : List (Call β)) :
    ∃ t, step (final step d calls) .poll =
      some (t, (Polling.next F (view (final step d calls)) .poll).2) ∧
        view t = (Polling.next F (view (final step d calls)) .poll).1 := by
  obtain ⟨t, hstep, _, hview⟩ := hF.next _ .poll (exact_run hF hgood hstart calls).1
  exact ⟨t, hstep, hview⟩

omit hstart in
/-- Every step of a run is a step of `next`. -/
theorem entry_next {calls : List (Call β)} {x : Entry σ (Call β) (Answer α ε)}
    (hx : x ∈ trace step d calls) :
    x.output = (Polling.next F (view x.before) x.event).2 ∧
      view x.after = (Polling.next F (view x.before) x.event).1 := by
  refine (history_invariant_start
    (fun h s => good s ∧ ∀ x ∈ h, x.output = (Polling.next F (view x.before) x.event).2 ∧
      view x.after = (Polling.next F (view x.before) x.event).1)
    ⟨hgood, by simp⟩ ?_ calls).2 x hx
  intro h s c t o ⟨hs, hall⟩ hstep
  obtain ⟨t', hstep', ht', hview⟩ := hF.next s c hs
  rw [hstep, Option.some.injEq, Prod.mk.injEq] at hstep'
  obtain ⟨rfl, ho⟩ := hstep'
  refine ⟨ht', fun x hx => ?_⟩
  rcases List.mem_append.mp hx with hx | hx
  · exact hall x hx
  · rw [List.mem_singleton.mp hx]
    exact ⟨ho, hview⟩

omit hstart in
/-- A decoder that waits, and has not failed, has too little for an item. -/
theorem front_of_waiting {calls : List (Call β)} {x : Entry σ (Call β) (Answer α ε)}
    (hx : x ∈ trace step d calls) (hwait : x.output = .polled (.ok none))
    (hlive : (view x.after).poisoned = false) : F.front (view x.after).buffer = .more := by
  obtain ⟨hout, hafter⟩ := entry_next hF hgood hx
  rw [hafter] at hlive ⊢
  rw [hout] at hwait
  cases hevent : x.event with
  | feed chunk =>
    rw [hevent] at hwait
    cases hwait
  | poll =>
    rw [hevent] at hwait hlive
    by_cases hpoisoned : (view x.before).poisoned = true
    · simp [Polling.next, hpoisoned] at hlive
    · rcases hfront : F.front (view x.before).buffer with _ | ⟨a, n⟩ | e
      · simp [Polling.next, hpoisoned, hfront]
      · simp [Polling.next, hpoisoned, hfront] at hwait
      · simp [Polling.next, hpoisoned, hfront] at hwait

include htotal

/-- What has been handed out is a prefix of what the whole input holds, whatever
comes later. -/
theorem delivered_prefix (calls : List (Call β)) (later : List β) :
    delivered (trace step d calls) <+: (F.parse (fed calls ++ later)).1 := by
  have hexact := (exact_run hF hgood hstart calls).2
  unfold Exact at hexact
  rw [map_event_trace htotal] at hexact
  split at hexact
  · obtain ⟨w, rest, e, hw, hcuts, _, _⟩ := hexact
    rw [hw, List.append_assoc]
    exact hcuts.prefix_parse _
  · exact hexact.1.prefix_parse later

/-- The next poll hands out no item. -/
def Drained (step : σ → Call β → Option (σ × Answer α ε)) (d : σ) : Prop :=
  ∀ t a, step d .poll ≠ some (t, .polled (.ok (some a)))

/-- A decoder that has no item left has handed out those of the one-shot parse,
and the first error raised, by the next poll at the latest, is the one that
parse ends in. -/
theorem delivered_of_drained (calls : List (Call β)) (hstop : Drained step (final step d calls)) :
    delivered (trace step d calls) = (F.parse (fed calls)).1 ∧
      raised (trace step d (calls ++ [.poll])) = (F.parse (fed calls)).2 := by
  have hexact := (exact_run hF hgood hstart calls).2
  obtain ⟨t, hstep, _⟩ := poll_eq hF hgood hstart calls
  unfold Exact at hexact
  rw [map_event_trace htotal] at hexact
  rw [trace_concat htotal hstep, raised_concat]
  by_cases hpoisoned : (view (final step d calls)).poisoned = true
  · rw [if_pos hpoisoned] at hexact
    obtain ⟨w, rest, e, hw, hcuts, hfail, hraised⟩ := hexact
    rw [hw, (hcuts.append rest).parse_of_fail (F.fail_append rest hfail), hraised]
    exact ⟨rfl, rfl⟩
  · rw [if_neg hpoisoned] at hexact
    obtain ⟨hcuts, hraised⟩ := hexact
    rw [hraised]
    rcases hfront : F.front (view (final step d calls)).buffer with _ | ⟨a, n⟩ | e
    · rw [hcuts.parse_of_more hfront]
      refine ⟨rfl, ?_⟩
      simp only [Polling.next, hpoisoned, hfront, Bool.false_eq_true, if_false]
      rfl
    · simp only [Polling.next, hpoisoned, hfront, Bool.false_eq_true, if_false] at hstep
      exact absurd hstep (hstop t a)
    · rw [hcuts.parse_of_fail hfront]
      refine ⟨rfl, ?_⟩
      simp only [Polling.next, hpoisoned, hfront, Bool.false_eq_true, if_false]
      rfl

/-- Asking often enough leaves no item: each one shortens what is held. -/
theorem polls_drain (calls : List (Call β)) :
    ∃ k, Drained step (final step d (calls ++ List.replicate k .poll)) := by
  induction hn : (view (final step d calls)).buffer.length using Nat.strongRecOn
    generalizing calls with
  | _ n ih =>
    obtain ⟨t, hstep, hview⟩ := poll_eq hF hgood hstart calls
    by_cases hitem : ∃ a m, (view (final step d calls)).poisoned = false ∧
        F.front (view (final step d calls)).buffer = .item a m
    · obtain ⟨a, m, hlive, hfront⟩ := hitem
      have ht : final step d (calls ++ [.poll]) = t := final_concat htotal hstep
      have hlt : (view (final step d (calls ++ [.poll]))).buffer.length < n := by
        simp only [Polling.next, hlive, hfront, Bool.false_eq_true, if_false] at hview
        rw [ht, hview, ← hn]
        exact F.drop_length_lt hfront
      obtain ⟨k, hk⟩ := ih _ hlt _ rfl
      refine ⟨k + 1, ?_⟩
      rw [List.replicate_succ, List.append_cons]
      exact hk
    · refine ⟨0, fun t' a hpoll => hitem ?_⟩
      rw [List.replicate_zero, List.append_nil, hstep, Option.some.injEq, Prod.mk.injEq] at hpoll
      have hanswer := hpoll.2
      by_cases hpoisoned : (view (final step d calls)).poisoned = true
      · simp [Polling.next, hpoisoned] at hanswer
      · rcases hfront : F.front (view (final step d calls)).buffer with _ | ⟨a', m⟩ | e
        · simp [Polling.next, hpoisoned, hfront] at hanswer
        · exact ⟨a', m, by simpa using hpoisoned, rfl⟩
        · simp [Polling.next, hpoisoned, hfront] at hanswer

/-- Once an error has been answered, every later poll answers that nothing has
arrived. -/
theorem quiet_after_error (calls : List (Call β)) :
    (trace step d calls).Pairwise fun x y => ∀ e, x.output = .polled (.error e) →
      y.event = .poll → y.output = .polled (.ok none) := by
  induction calls using List.reverseRecOn with
  | nil => exact List.Pairwise.nil
  | append_singleton calls c ih =>
    have hexact := exact_run hF hgood hstart calls
    obtain ⟨t, hstep, _, _⟩ := hF.next _ c hexact.1
    rw [trace_concat htotal hstep, List.pairwise_append]
    refine ⟨ih, List.pairwise_singleton _ _, fun x hx y hy e herror hevent => ?_⟩
    rw [List.mem_singleton] at hy
    subst hy
    have hraised : raised (trace step d calls) ≠ none := by
      intro hnone
      have hx' := List.findSome?_eq_none_iff.mp hnone x hx
      rw [herror] at hx'
      cases hx'
    have hpoisoned : (view (final step d calls)).poisoned = true := by
      by_contra hlive
      unfold Exact at hexact
      rw [if_neg hlive] at hexact
      exact hraised hexact.2.2
    simp only at hevent ⊢
    rw [hevent]
    simp only [Polling.next, hpoisoned, if_true]

/-- Items that fill the input are handed out, without an error and with nothing
held back. -/
theorem delivered_of_cuts {calls : List (Call β)} {as : List α} (hempty : F.front [] = .more)
    (hcuts : F.Cuts (fed calls) as []) (hstop : Drained step (final step d calls)) :
    delivered (trace step d calls) = as ∧ raised (trace step d calls) = none ∧
      (view (final step d calls)).buffer = [] := by
  obtain ⟨hall, hlast⟩ := delivered_of_drained hF htotal hgood hstart calls hstop
  obtain ⟨t, hstep, _⟩ := poll_eq hF hgood hstart calls
  rw [hcuts.parse_of_more hempty] at hall hlast
  rw [trace_concat htotal hstep, raised_concat, Option.or_eq_none_iff] at hlast
  have hexact := (exact_run hF hgood hstart calls).2
  unfold Exact at hexact
  rw [map_event_trace htotal] at hexact
  refine ⟨hall, hlast.1, ?_⟩
  split at hexact
  · obtain ⟨_, _, e, _, _, _, hraised⟩ := hexact
    rw [hlast.1] at hraised
    cases hraised
  · rw [hall] at hexact
    exact hexact.1.unique hcuts

end Refined

end Polling
end IndieWorker
