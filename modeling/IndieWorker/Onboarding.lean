import IndieWorker.Lib.Run

/-!
# Onboarding

The organisation and user onboarding machines of `src/onboarding.rs`, and what
a run of either owes to the steps before it.

Both machines are one function, `advance`, over an explicit edge table.  The two
tables differ only in their values, so the facts about runs are proved once, for
any table that is a ladder.
-/

namespace IndieWorker
namespace Onboarding

inductive OrgState where
  | created
  | orgProfile
  | billingLinked
  | githubAppInstalled
  | firstWorkflowPlanned
  | active
  | suspended
  deriving DecidableEq, Repr

inductive UserState where
  | created
  | emailVerified
  | profileComplete
  | orgJoined
  | active
  | dormant
  deriving DecidableEq, Repr

/-- The events either machine accepts. -/
inductive Event where
  | profileCompleted
  | billingLinked
  | githubAppInstalled
  | firstWorkflowPlanned
  | activated
  | suspended
  | resumed
  | emailVerified
  | orgJoined
  | wentDormant
  deriving DecidableEq, Repr

/-- Why an advance did not move the machine. -/
inductive Rejection where
  | unknownEvent
  | notAllowedHere
  deriving DecidableEq, Repr

inductive Outcome (σ : Type) where
  | advanced (next : σ)
  | alreadyThere (current : σ)
  | rejected (reason : Rejection)
  deriving DecidableEq, Repr

namespace Outcome

variable {σ : Type}

/-- The state the subject is in after the advance, if it is still valid. -/
def state : Outcome σ → Option σ
  | .advanced s | .alreadyThere s => some s
  | .rejected _ => none

def moved : Outcome σ → Bool
  | .advanced _ => true
  | _ => false

end Outcome

section Advance

variable {σ : Type} [DecidableEq σ]

def advance (current : σ) (event : Event) (edges : List (σ × Event × σ)) (events : List Event) :
    Outcome σ :=
  if !events.contains event then
    .rejected .unknownEvent
  else
    match edges.find? (fun (start, e, _) => start == current && e == event) with
    | some (_, _, next) => .advanced next
    | none =>
      -- An event whose target is already the current state is a replay, not a fault.
      if edges.any (fun (_, e, target) => e == event && target == current) then
        .alreadyThere current
      else
        .rejected .notAllowedHere

/-- An advance that moves follows an edge of the table. -/
theorem mem_edges_of_advance {s t : σ} {e : Event} {edges : List (σ × Event × σ)}
    {events : List Event} (h : advance s e edges events = .advanced t) : (s, e, t) ∈ edges := by
  unfold advance at h
  split at h
  · cases h
  · split at h
    · next start e' next hfind =>
      have hmem := List.mem_of_find?_eq_some hfind
      have hkey := List.find?_some hfind
      simp only [Bool.and_eq_true, beq_iff_eq] at hkey
      obtain ⟨rfl, rfl⟩ := hkey
      cases h
      exact hmem
    · split at h <;> cases h

/-- An edge out of the current state always moves the machine. -/
theorem advance_moved_of_mem {s t : σ} {e : Event} {edges : List (σ × Event × σ)}
    {events : List Event} (he : e ∈ events) (h : (s, e, t) ∈ edges) :
    ∃ u, advance s e edges events = .advanced u := by
  unfold advance
  rw [if_neg (by simpa using he)]
  split
  · next start e' next hfind => exact ⟨next, rfl⟩
  · next hfind =>
    have := List.find?_eq_none.mp hfind _ h
    simp at this

/-- One event applied by a caller who keeps the state when the machine does not
move. -/
def follow {σ : Type} (advance : σ → Event → Outcome σ) (s : σ) (e : Event) :
    Option (σ × Outcome σ) :=
  match advance s e with
  | .advanced t => some (t, .advanced t)
  | o => some (s, o)

/-- Event `m` has produced an `Advanced` outcome. -/
def Advanced {σ : Type} (h : List (Run.Entry σ Event (Outcome σ))) (m : Event) : Prop :=
  ∃ x ∈ h, x.event = m ∧ x.output.moved = true

instance {σ : Type} (h : List (Run.Entry σ Event (Outcome σ))) (m : Event) :
    Decidable (Advanced h m) :=
  inferInstanceAs (Decidable (∃ x ∈ h, x.event = m ∧ x.output.moved = true))

end Advance

namespace OrgState

/-- The events this machine understands. -/
def EVENTS : List Event :=
  [.profileCompleted, .billingLinked, .githubAppInstalled, .firstWorkflowPlanned, .activated,
    .suspended]

/-- The complete edge set: `(from, event, to)`.  Nothing else may move an org. -/
def transitions : List (OrgState × Event × OrgState) :=
  [(.created, .profileCompleted, .orgProfile),
    (.orgProfile, .billingLinked, .billingLinked),
    (.billingLinked, .githubAppInstalled, .githubAppInstalled),
    (.githubAppInstalled, .firstWorkflowPlanned, .firstWorkflowPlanned),
    (.firstWorkflowPlanned, .activated, .active),
    (.created, .suspended, .suspended),
    (.orgProfile, .suspended, .suspended),
    (.billingLinked, .suspended, .suspended),
    (.githubAppInstalled, .suspended, .suspended),
    (.firstWorkflowPlanned, .suspended, .suspended),
    (.active, .suspended, .suspended),
    (.suspended, .activated, .active)]

def advance (current : OrgState) (event : Event) : Outcome OrgState :=
  Onboarding.advance current event transitions EVENTS

/-- Whether the org may submit runs. -/
def mayRunWorkflows : OrgState → Bool
  | .active => true
  | _ => false

def history (events : List Event) : List (Run.Entry OrgState Event (Outcome OrgState)) :=
  Run.trace (follow advance) .created events

def reached (events : List Event) : OrgState := Run.final (follow advance) .created events

/-- An org that may run workflows has been through every onboarding step. -/
def NoStepSkipped (events : List Event) : Prop :=
  (reached events).mayRunWorkflows = true →
    ∀ m ∈ [Event.profileCompleted, .billingLinked, .githubAppInstalled, .firstWorkflowPlanned],
      Advanced (history events) m

instance : DecidablePred NoStepSkipped :=
  fun _ => inferInstanceAs (Decidable (_ → _))

end OrgState

namespace UserState

def EVENTS : List Event :=
  [.emailVerified, .profileCompleted, .orgJoined, .activated, .wentDormant, .resumed]

def transitions : List (UserState × Event × UserState) :=
  [(.created, .emailVerified, .emailVerified),
    (.emailVerified, .profileCompleted, .profileComplete),
    (.profileComplete, .orgJoined, .orgJoined),
    (.orgJoined, .activated, .active),
    (.created, .wentDormant, .dormant),
    (.emailVerified, .wentDormant, .dormant),
    (.profileComplete, .wentDormant, .dormant),
    (.orgJoined, .wentDormant, .dormant),
    (.active, .wentDormant, .dormant),
    (.dormant, .resumed, .active)]

def advance (current : UserState) (event : Event) : Outcome UserState :=
  Onboarding.advance current event transitions EVENTS

/-- Whether the user may act inside an org. -/
def isSettled : UserState → Bool
  | .active => true
  | _ => false

def history (events : List Event) : List (Run.Entry UserState Event (Outcome UserState)) :=
  Run.trace (follow advance) .created events

def reached (events : List Event) : UserState := Run.final (follow advance) .created events

/-- A settled user has been through every onboarding step. -/
def NoStepSkipped (events : List Event) : Prop :=
  (reached events).isSettled = true →
    ∀ m ∈ [Event.emailVerified, .profileCompleted, .orgJoined], Advanced (history events) m

instance : DecidablePred NoStepSkipped :=
  fun _ => inferInstanceAs (Decidable (_ → _))

end UserState

end Onboarding
end IndieWorker
