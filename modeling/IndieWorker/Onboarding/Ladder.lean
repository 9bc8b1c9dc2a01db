import IndieWorker.Onboarding
import Mathlib.Data.List.Induction

/-!
# Ladders

A ladder is an edge table read as a climb: every state on the main path stands
for the steps taken to reach it, and one side state can be entered from the path
and left straight for the goal.  The fields are checks of the table.

A run keeps its promise when it stands at the goal only after every step of the
climb.  `climbs_iff` says which runs keep it: those in which nothing leaves the
side state once it has been entered from a state that still lacked a step.
-/

namespace IndieWorker
namespace Onboarding

/-- An edge table with the meaning of its states.  `need s` are the steps a
subject on the main path has taken once it is in `s`, and `early` are the states
of the main path that still lack a step. -/
structure Ladder (σ : Type) [DecidableEq σ] where
  edges : List (σ × Event × σ)
  events : List Event
  start : σ
  goal : σ
  side : σ
  enter : Event
  leave : Event
  steps : List Event
  need : σ → List Event
  early : List σ
  start_ne_side : start ≠ side
  goal_ne_side : goal ≠ side
  need_start : need start = []
  need_goal : need goal = steps
  climb : ∀ x ∈ edges, x.1 ≠ side → x.2.2 ≠ side → need x.2.2 ⊆ x.2.1 :: need x.1
  fall : ∀ x ∈ edges, x.2.2 = side → x.1 ≠ side ∧ x.2.1 = enter
  rise : ∀ x ∈ edges, x.1 = side → x.2.1 = leave ∧ x.2.2 = goal
  enter_mem : enter ∈ events
  enter_edge : ∀ s ∈ early, (s, enter, side) ∈ edges
  enter_side : ∀ x ∈ edges, x.2.1 = enter → x.2.2 = side
  leave_mem : leave ∈ events
  leave_edge : (side, leave, goal) ∈ edges
  enter_not_step : enter ∉ steps
  leave_not_step : leave ∉ steps
  early_iff : ∀ s, s ∈ early ↔ s ≠ side ∧ ∃ m ∈ steps, m ∉ need s
  back : ∀ x ∈ edges, x.2.2 ∈ early → x.1 ∈ early ∧ x.2.1 :: need x.1 ⊆ need x.2.2

namespace Ladder

open Run

variable {σ : Type} [DecidableEq σ] (L : Ladder σ)

def apply : σ → Event → Option (σ × Outcome σ) :=
  follow fun s e => advance s e L.edges L.events

def history (events : List Event) : List (Entry σ Event (Outcome σ)) :=
  trace L.apply L.start events

def reached (events : List Event) : σ := final L.apply L.start events

/-- The side state is entered from a state of the main path that lacks a step. -/
def EarlyFall (x : Entry σ Event (Outcome σ)) : Prop := x.event = L.enter ∧ x.before ∈ L.early

/-- Every stand at the goal comes after every step. -/
def Climbs (events : List Event) : Prop :=
  L.reached events = L.goal → ∀ m ∈ L.steps, Advanced (L.history events) m

/-- Nothing leaves the side state after an early fall into it. -/
def StaysDown (h : List (Entry σ Event (Outcome σ))) : Prop :=
  h.Pairwise fun x y => L.EarlyFall x → y.event ≠ L.leave

theorem apply_total (s : σ) (e : Event) : (L.apply s e).isSome := by
  unfold apply follow
  split <;> rfl

/-- What one event can do: follow an edge, or change nothing. -/
theorem apply_cases (s : σ) (e : Event) :
    (∃ t, (s, e, t) ∈ L.edges ∧ L.apply s e = some (t, .advanced t)) ∨
      ∃ o : Outcome σ, o.moved = false ∧ L.apply s e = some (s, o) := by
  rcases ho : advance s e L.edges L.events with t | t | r
  · exact Or.inl ⟨t, mem_edges_of_advance ho, by simp only [apply, follow, ho]⟩
  · exact Or.inr ⟨.alreadyThere t, rfl, by simp only [apply, follow, ho]⟩
  · exact Or.inr ⟨.rejected r, rfl, by simp only [apply, follow, ho]⟩

/-- The event that leaves the side state always moves a machine that is in it. -/
theorem apply_leave : ∃ t, L.apply L.side L.leave = some (t, .advanced t) := by
  obtain ⟨u, hu⟩ := advance_moved_of_mem L.leave_mem L.leave_edge
  exact ⟨u, by simp only [apply, follow, hu]⟩

/-- The event that enters the side state takes every early state there. -/
theorem apply_enter {s : σ} (hs : s ∈ L.early) :
    L.apply s L.enter = some (L.side, .advanced L.side) := by
  obtain ⟨u, hu⟩ := advance_moved_of_mem L.enter_mem (L.enter_edge s hs)
  have hside : u = L.side := L.enter_side _ (mem_edges_of_advance hu) rfl
  simp only [apply, follow, hu, hside]

omit [DecidableEq σ] in
theorem advanced_append {h : List (Entry σ Event (Outcome σ))} {x : Entry σ Event (Outcome σ)}
    {m : Event} :
    Advanced (h ++ [x]) m ↔ Advanced h m ∨ (x.event = m ∧ x.output.moved = true) := by
  simp [Advanced, or_and_right, exists_or]

theorem staysDown_append {h : List (Entry σ Event (Outcome σ))}
    {x : Entry σ Event (Outcome σ)} :
    L.StaysDown (h ++ [x]) ↔ L.StaysDown h ∧ ∀ y ∈ h, L.EarlyFall y → x.event ≠ L.leave := by
  simp [StaysDown, List.pairwise_append]

/-- What the history owes to the current state of a run that stays down: the
steps the state stands for, and in the side state every step or an early fall. -/
structure Owed (h : List (Entry σ Event (Outcome σ))) (s : σ) : Prop where
  path : s ≠ L.side → ∀ m ∈ L.need s, Advanced h m
  side : s = L.side → (∀ m ∈ L.steps, Advanced h m) ∨ ∃ x ∈ h, L.EarlyFall x

variable {L}

theorem Owed.weaken {h : List (Entry σ Event (Outcome σ))} {s : σ} (hs : L.Owed h s)
    (x : Entry σ Event (Outcome σ)) : L.Owed (h ++ [x]) s := by
  refine ⟨fun hne m hm => advanced_append.mpr (Or.inl (hs.path hne m hm)), fun he => ?_⟩
  rcases hs.side he with hall | ⟨y, hy, hfall⟩
  · exact Or.inl fun m hm => advanced_append.mpr (Or.inl (hall m hm))
  · exact Or.inr ⟨y, List.mem_append_left _ hy, hfall⟩

/-- A state of the main path that is not early has every step behind it. -/
theorem steps_subset_need {s : σ} (hs : s ≠ L.side) (hearly : s ∉ L.early) :
    ∀ m ∈ L.steps, m ∈ L.need s := by
  intro m hm
  by_contra hneed
  exact hearly ((L.early_iff s).mpr ⟨hs, m, hm, hneed⟩)

theorem owed_step {h : List (Entry σ Event (Outcome σ))} {s t : σ} {e : Event}
    (hs : L.Owed h s) (hedge : (s, e, t) ∈ L.edges)
    (hdown : ∀ y ∈ h, L.EarlyFall y → e ≠ L.leave) :
    L.Owed (h ++ [⟨s, e, .advanced t, t⟩]) t := by
  by_cases hside : s = L.side
  · -- Out of the side state there is one way, to the goal.
    obtain ⟨he, ht⟩ := L.rise _ hedge hside
    simp only at he ht
    refine ⟨fun _ m hm => ?_, fun hts => absurd (ht ▸ hts) L.goal_ne_side⟩
    rw [ht, L.need_goal] at hm
    rcases hs.side hside with hall | ⟨y, hy, hfall⟩
    · exact advanced_append.mpr (Or.inl (hall m hm))
    · exact absurd he (hdown y hy hfall)
  · refine ⟨fun hts m hm => ?_, fun hts => ?_⟩
    · rcases List.mem_cons.mp (L.climb _ hedge hside hts hm) with rfl | hm
      · exact advanced_append.mpr (Or.inr ⟨rfl, rfl⟩)
      · exact advanced_append.mpr (Or.inl (hs.path hside m hm))
    · by_cases hearly : s ∈ L.early
      · exact Or.inr ⟨_, List.mem_append_right _ (List.mem_singleton_self _),
          (L.fall _ hedge hts).2, hearly⟩
      · exact Or.inl fun m hm =>
          advanced_append.mpr (Or.inl (hs.path hside m (steps_subset_need hside hearly m hm)))

theorem owed_history (events : List Event) (h : L.StaysDown (L.history events)) :
    L.Owed (L.history events) (L.reached events) := by
  refine history_invariant_start (fun h s => L.StaysDown h → L.Owed h s) ?_ ?_ events h
  · intro _
    refine ⟨fun _ m hm => ?_, fun he => absurd he L.start_ne_side⟩
    rw [L.need_start] at hm
    cases hm
  · intro h s e t o ih hse hdown
    obtain ⟨hprev, hlast⟩ := L.staysDown_append.mp hdown
    rcases L.apply_cases s e with ⟨t', hedge, happly⟩ | ⟨o', -, happly⟩
    · rw [happly] at hse
      cases hse
      exact owed_step (ih hprev) hedge hlast
    · rw [happly] at hse
      cases hse
      exact (ih hprev).weaken _

/-- A run that stays down stands at the goal only after every step. -/
theorem climbs_of_staysDown {events : List Event} (h : L.StaysDown (L.history events)) :
    L.Climbs events := by
  intro hgoal m hm
  refine (owed_history events h).path (by rw [hgoal]; exact L.goal_ne_side) m ?_
  rw [hgoal, L.need_goal]
  exact hm

/-- What is known of a run that has kept its promise so far. -/
structure Kept (h : List (Entry σ Event (Outcome σ))) (s : σ) : Prop where
  down : L.StaysDown h
  fallen : (∃ x ∈ h, L.EarlyFall x) → s = L.side ∧ ∃ m ∈ L.steps, ¬ Advanced h m
  path : s ∈ L.early → ∀ m ∈ L.steps, Advanced h m → m ∈ L.need s

theorem kept_start : L.Kept [] L.start where
  down := List.Pairwise.nil
  fallen := by simp
  path := by simp [Advanced]

theorem kept_stay {h : List (Entry σ Event (Outcome σ))} {s : σ} {e : Event} {o : Outcome σ}
    (hs : L.Kept h s) (hmoved : o.moved = false) (happly : L.apply s e = some (s, o)) :
    L.Kept (h ++ [⟨s, e, o, s⟩]) s := by
  have hadvanced : ∀ m, Advanced (h ++ [⟨s, e, o, s⟩]) m ↔ Advanced h m := fun m => by
    simp [advanced_append, hmoved]
  -- The event that leaves the side state would have moved a fallen machine.
  have hleave : ∀ y ∈ h, L.EarlyFall y → e ≠ L.leave := by
    intro y hy hfall he
    obtain ⟨t, ht⟩ := L.apply_leave
    rw [(hs.fallen ⟨y, hy, hfall⟩).1, he, ht] at happly
    cases happly
    cases hmoved
  -- So would the event that enters it have moved an early one.
  have hfresh : ¬ L.EarlyFall ⟨s, e, o, s⟩ := by
    intro hand
    obtain ⟨he, hearly⟩ := hand
    simp only at he hearly
    rw [he, L.apply_enter hearly] at happly
    cases happly
    cases hmoved
  refine ⟨L.staysDown_append.mpr ⟨hs.down, hleave⟩, ?_, ?_⟩
  · intro hex
    obtain ⟨x, hx, hfall⟩ := hex
    rcases List.mem_append.mp hx with hx | hx
    · obtain ⟨hside, m, hm, hnot⟩ := hs.fallen ⟨x, hx, hfall⟩
      exact ⟨hside, m, hm, fun h' => hnot ((hadvanced m).mp h')⟩
    · rw [List.mem_singleton] at hx
      subst hx
      exact absurd hfall hfresh
  · exact fun hearly m hm h' => hs.path hearly m hm ((hadvanced m).mp h')

theorem kept_move {h : List (Entry σ Event (Outcome σ))} {s t : σ} {e : Event}
    (hs : L.Kept h s) (hedge : (s, e, t) ∈ L.edges)
    (hclimb : t = L.goal → ∀ m ∈ L.steps, Advanced (h ++ [⟨s, e, .advanced t, t⟩]) m) :
    L.Kept (h ++ [⟨s, e, .advanced t, t⟩]) t := by
  -- A fallen machine has only the goal to go to, and it may not stand there.
  have hnofall : ¬ ∃ x ∈ h, L.EarlyFall x := by
    intro hfallen
    obtain ⟨hside, m, hm, hnot⟩ := hs.fallen hfallen
    obtain ⟨he, ht⟩ := L.rise _ hedge hside
    rcases advanced_append.mp (hclimb ht m hm) with h' | ⟨h', -⟩
    · exact hnot h'
    · simp only at h' he
      exact L.leave_not_step (by rw [← he, h']; exact hm)
  refine ⟨L.staysDown_append.mpr ⟨hs.down, fun y hy hfall => ?_⟩, ?_, ?_⟩
  · exact absurd ⟨y, hy, hfall⟩ hnofall
  · intro hex
    obtain ⟨x, hx, hfall⟩ := hex
    rcases List.mem_append.mp hx with hx | hx
    · exact absurd ⟨x, hx, hfall⟩ hnofall
    · rw [List.mem_singleton] at hx
      subst hx
      obtain ⟨he, hearly⟩ := hfall
      simp only at he hearly
      obtain ⟨-, m, hm, hneed⟩ := (L.early_iff s).mp hearly
      refine ⟨L.enter_side _ hedge he, m, hm, fun h' => ?_⟩
      rcases advanced_append.mp h' with h' | ⟨h', -⟩
      · exact hneed (hs.path hearly m hm h')
      · simp only at h'
        exact L.enter_not_step (by rw [← he, h']; exact hm)
  · intro hearly m hm h'
    obtain ⟨hprev, hsub⟩ := L.back _ hedge hearly
    rcases advanced_append.mp h' with h' | ⟨h', -⟩
    · exact hsub (List.mem_cons_of_mem _ (hs.path hprev m hm h'))
    · exact hsub (List.mem_cons.mpr (Or.inl h'.symm))

theorem kept_history (events : List Event) (h : ∀ front, front <+: events → L.Climbs front) :
    L.Kept (L.history events) (L.reached events) := by
  induction events using List.reverseRecOn with
  | nil => exact kept_start
  | append_singleton events e ih =>
    have hprev := ih fun front hfront => h front (hfront.trans (List.prefix_append _ _))
    have hlast := h _ (List.prefix_refl _)
    rcases L.apply_cases (L.reached events) e with ⟨t, hedge, happly⟩ | ⟨o, hmoved, happly⟩
    · have hh : L.history (events ++ [e]) = L.history events ++ [⟨L.reached events, e,
          .advanced t, t⟩] := trace_concat L.apply_total happly
      have hr : L.reached (events ++ [e]) = t := final_concat L.apply_total happly
      rw [Climbs, hr, hh] at hlast
      rw [hr, hh]
      exact kept_move hprev hedge hlast
    · have hh : L.history (events ++ [e]) = L.history events ++ [⟨L.reached events, e, o,
          L.reached events⟩] := trace_concat L.apply_total happly
      have hr : L.reached (events ++ [e]) = L.reached events := final_concat L.apply_total happly
      rw [hr, hh]
      exact kept_stay hprev hmoved happly

/-- A run keeps its promise in every state it reaches exactly when nothing leaves
the side state after an early fall into it. -/
theorem climbs_iff (events : List Event) :
    (∀ front, front <+: events → L.Climbs front) ↔ L.StaysDown (L.history events) := by
  constructor
  · exact fun h => (kept_history events h).down
  · intro h front hex
    obtain ⟨rest, rfl⟩ := hex
    exact climbs_of_staysDown (List.Pairwise.sublist (trace_extends _ _ _).sublist h)

end Ladder

namespace OrgState

/-- The steps an org has taken once it is in a state of the main path. -/
def need : OrgState → List Event
  | .created | .suspended => []
  | .orgProfile => [.profileCompleted]
  | .billingLinked => [.profileCompleted, .billingLinked]
  | .githubAppInstalled => [.profileCompleted, .billingLinked, .githubAppInstalled]
  | .firstWorkflowPlanned | .active =>
    [.profileCompleted, .billingLinked, .githubAppInstalled, .firstWorkflowPlanned]

def ladder : Ladder OrgState where
  edges := transitions
  events := EVENTS
  start := .created
  goal := .active
  side := .suspended
  enter := .suspended
  leave := .activated
  steps := [.profileCompleted, .billingLinked, .githubAppInstalled, .firstWorkflowPlanned]
  need := need
  early := [.created, .orgProfile, .billingLinked, .githubAppInstalled]
  start_ne_side := by decide
  goal_ne_side := by decide
  need_start := rfl
  need_goal := rfl
  climb := by decide
  fall := by decide
  rise := by decide
  enter_mem := by decide
  enter_edge := by decide
  enter_side := by decide
  leave_mem := by decide
  leave_edge := by decide
  enter_not_step := by decide
  leave_not_step := by decide
  early_iff := by intro s; cases s <;> decide
  back := by decide

end OrgState

namespace UserState

/-- The steps a user has taken once it is in a state of the main path. -/
def need : UserState → List Event
  | .created | .dormant => []
  | .emailVerified => [.emailVerified]
  | .profileComplete => [.emailVerified, .profileCompleted]
  | .orgJoined | .active => [.emailVerified, .profileCompleted, .orgJoined]

def ladder : Ladder UserState where
  edges := transitions
  events := EVENTS
  start := .created
  goal := .active
  side := .dormant
  enter := .wentDormant
  leave := .resumed
  steps := [.emailVerified, .profileCompleted, .orgJoined]
  need := need
  early := [.created, .emailVerified, .profileComplete]
  start_ne_side := by decide
  goal_ne_side := by decide
  need_start := rfl
  need_goal := rfl
  climb := by decide
  fall := by decide
  rise := by decide
  enter_mem := by decide
  enter_edge := by decide
  enter_side := by decide
  leave_mem := by decide
  leave_edge := by decide
  enter_not_step := by decide
  leave_not_step := by decide
  early_iff := by intro s; cases s <;> decide
  back := by decide

end UserState

/-- No run skips an onboarding step exactly when no event resumes a subject that
was suspended, or went dormant, before its last step. -/
theorem no_step_skipped_iff (events : List Event) :
    ((∀ front, front <+: events → OrgState.NoStepSkipped front) ↔
      (OrgState.history events).Pairwise fun x y =>
        x.event = .suspended ∧
            x.before ∈ [.created, .orgProfile, .billingLinked, .githubAppInstalled] →
          y.event ≠ .activated) ∧
    ((∀ front, front <+: events → UserState.NoStepSkipped front) ↔
      (UserState.history events).Pairwise fun x y =>
        x.event = .wentDormant ∧ x.before ∈ [.created, .emailVerified, .profileComplete] →
          y.event ≠ .resumed) := by
  have horg : ∀ s : OrgState, s.mayRunWorkflows = true ↔ s = .active := by
    intro s
    cases s <;> decide
  have huser : ∀ s : UserState, s.isSettled = true ↔ s = .active := by
    intro s
    cases s <;> decide
  constructor
  · rw [show (∀ front, front <+: events → OrgState.NoStepSkipped front) ↔
      ∀ front, front <+: events → OrgState.ladder.Climbs front from
        forall₂_congr fun front _ => imp_congr (horg _) Iff.rfl]
    exact OrgState.ladder.climbs_iff events
  · rw [show (∀ front, front <+: events → UserState.NoStepSkipped front) ↔
      ∀ front, front <+: events → UserState.ladder.Climbs front from
        forall₂_congr fun front _ => imp_congr (huser _) Iff.rfl]
    exact UserState.ladder.climbs_iff events

/-- A suspension on the first day and its lifting make an org active with no
step taken, and going dormant does the same for a user. -/
theorem suspension_skips_onboarding :
    ¬ OrgState.NoStepSkipped [.suspended, .activated] ∧
      ¬ UserState.NoStepSkipped [.wentDormant, .resumed] := by
  decide

end Onboarding
end IndieWorker
