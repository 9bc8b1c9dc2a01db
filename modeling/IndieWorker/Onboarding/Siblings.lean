import IndieWorker.Onboarding
import IndieWorker.Lib.Lockstep

/-!
# The siblings

The onboarding machines of `src/onboarding.rs` exist again in TypeScript
(`typescript/src/onboarding.mjs`), Dart (`dart/lib/src/onboarding.dart`) and Gleam
(`gleam/src/gha_indie_worker_lib_core.gleam`).  Each has its own names for the
states and events; TypeScript has no types for them and takes any text.

A table read through injective renamings answers as the table does, so each
sibling runs in lockstep with the machine it mirrors.
-/

namespace IndieWorker
namespace Onboarding

open Run

/-! ## Names on the wire -/

/-- What `serde` writes for a state, the variant in kebab case. -/
def OrgState.wire : OrgState → String
  | .created => "created"
  | .orgProfile => "org-profile"
  | .billingLinked => "billing-linked"
  | .githubAppInstalled => "github-app-installed"
  | .firstWorkflowPlanned => "first-workflow-planned"
  | .active => "active"
  | .suspended => "suspended"

def UserState.wire : UserState → String
  | .created => "created"
  | .emailVerified => "email-verified"
  | .profileComplete => "profile-complete"
  | .orgJoined => "org-joined"
  | .active => "active"
  | .dormant => "dormant"

/-- The name `Display` prints and `serde` writes. -/
def Event.name : Event → String
  | .profileCompleted => "profile-completed"
  | .billingLinked => "billing-linked"
  | .githubAppInstalled => "github-app-installed"
  | .firstWorkflowPlanned => "first-workflow-planned"
  | .activated => "activated"
  | .suspended => "suspended"
  | .resumed => "resumed"
  | .emailVerified => "email-verified"
  | .orgJoined => "org-joined"
  | .wentDormant => "went-dormant"

theorem OrgState.wire_injective : Function.Injective OrgState.wire := by
  intro s t h
  cases s <;> cases t <;> first | rfl | exact absurd h (by decide)

theorem UserState.wire_injective : Function.Injective UserState.wire := by
  intro s t h
  cases s <;> cases t <;> first | rfl | exact absurd h (by decide)

theorem Event.name_injective : Function.Injective Event.name := by
  intro s t h
  cases s <;> cases t <;> first | rfl | exact absurd h (by decide)

/-- The event `serde` reads from a name. -/
def Event.fromName : String → Option Event
  | "profile-completed" => some .profileCompleted
  | "billing-linked" => some .billingLinked
  | "github-app-installed" => some .githubAppInstalled
  | "first-workflow-planned" => some .firstWorkflowPlanned
  | "activated" => some .activated
  | "suspended" => some .suspended
  | "resumed" => some .resumed
  | "email-verified" => some .emailVerified
  | "org-joined" => some .orgJoined
  | "went-dormant" => some .wentDormant
  | _ => none

theorem Event.fromName_eq_some_iff {name : String} {e : Event} :
    fromName name = some e ↔ name = e.name := by
  constructor
  · intro h
    unfold fromName at h
    split at h <;> cases h <;> rfl
  · rintro rfl
    cases e <;> rfl

/-! ## Tables under other names -/

namespace Outcome

variable {σ τ : Type}

def map (f : σ → τ) : Outcome σ → Outcome τ
  | .advanced s => .advanced (f s)
  | .alreadyThere s => .alreadyThere (f s)
  | .rejected r => .rejected r

end Outcome

section Answer

variable {σ ε : Type} [DecidableEq σ] [DecidableEq ε]

/-- The edge leaves `s` on `e`. -/
def leaves (s : σ) (e : ε) : σ × ε × σ → Bool := fun (start, f, _) => start == s && f == e

/-- The edge enters `s` on `e`. -/
def enters (s : σ) (e : ε) : σ × ε × σ → Bool := fun (_, f, target) => f == e && target == s

/-- `_advance` of the Dart sibling and `advance` of the Gleam one. -/
def answer (current : σ) (event : ε) (edges : List (σ × ε × σ)) (events : List ε) : Outcome σ :=
  if !events.contains event then
    .rejected .unknownEvent
  else
    match edges.find? (leaves current event) with
    | some (_, _, next) => .advanced next
    | none =>
      if edges.any (enters current event) then .alreadyThere current
      else .rejected .notAllowedHere

omit [DecidableEq ε] in
theorem advance_eq_answer (s : σ) (e : Event) (edges : List (σ × Event × σ))
    (events : List Event) : advance s e edges events = answer s e edges events := by
  unfold advance answer leaves enters
  by_cases hevent : (!events.contains e) = true
  · rw [if_pos hevent, if_pos hevent]
  · rw [if_neg hevent, if_neg hevent]
    split
    · rename_i hfound
      rw [hfound]
    · rename_i hnone
      rw [hnone]

end Answer

/-- Other names for the states and the events. -/
structure Renaming (σ ε τ δ : Type) where
  state : σ → τ
  event : ε → δ
  state_injective : Function.Injective state
  event_injective : Function.Injective event

namespace Renaming

variable {σ ε τ δ : Type} (R : Renaming σ ε τ δ)

def edge : σ × ε × σ → τ × δ × τ := fun (s, e, t) => (R.state s, R.event e, R.state t)

theorem state_beq [DecidableEq σ] [DecidableEq τ] (s t : σ) :
    (R.state s == R.state t) = (s == t) := by
  rw [Bool.eq_iff_iff, beq_iff_eq, beq_iff_eq]
  exact R.state_injective.eq_iff

theorem event_beq [DecidableEq ε] [DecidableEq δ] (e f : ε) :
    (R.event e == R.event f) = (e == f) := by
  rw [Bool.eq_iff_iff, beq_iff_eq, beq_iff_eq]
  exact R.event_injective.eq_iff

theorem contains_map [DecidableEq ε] [DecidableEq δ] (e : ε) (events : List ε) :
    (events.map R.event).contains (R.event e) = events.contains e := by
  rw [Bool.eq_iff_iff, List.contains_iff_mem, List.contains_iff_mem]
  exact List.mem_map_of_injective R.event_injective

variable [DecidableEq σ] [DecidableEq ε] [DecidableEq τ] [DecidableEq δ]

theorem leaves_edge (s : σ) (e : ε) : leaves (R.state s) (R.event e) ∘ R.edge = leaves s e := by
  funext ⟨start, f, target⟩
  simp only [Function.comp, edge, leaves, R.state_beq, R.event_beq]

theorem enters_edge (s : σ) (e : ε) : enters (R.state s) (R.event e) ∘ R.edge = enters s e := by
  funext ⟨start, f, target⟩
  simp only [Function.comp, edge, enters, R.state_beq, R.event_beq]

/-- A table under other names gives the answer of the table, under the other
names. -/
theorem answer_map (s : σ) (e : ε) (edges : List (σ × ε × σ)) (events : List ε) :
    answer (R.state s) (R.event e) (edges.map R.edge) (events.map R.event) =
      (answer s e edges events).map R.state := by
  unfold answer
  rw [R.contains_map, List.find?_map, R.leaves_edge, List.any_map, R.enters_edge]
  by_cases hevent : (!events.contains e) = true
  · rw [if_pos hevent, if_pos hevent]
    rfl
  · rw [if_neg hevent, if_neg hevent]
    rcases edges.find? (leaves s e) with _ | ⟨start, f, next⟩
    · by_cases htarget : edges.any (enters s e) = true
      · simp only [Option.map_none, if_pos htarget, Outcome.map]
      · simp only [Option.map_none, if_neg htarget, Outcome.map]
    · rfl

end Renaming

/-! ## TypeScript -/

namespace Js

/-- The object `advance` returns: every one names the state the subject is in
now. -/
inductive Outcome where
  | advanced (state : String)
  | alreadyThere (state : String)
  | rejected (reason state : String)
  deriving DecidableEq, Repr

def Outcome.state : Outcome → String
  | .advanced s | .alreadyThere s | .rejected _ s => s

def ORG_EVENTS : List String :=
  ["profile-completed", "billing-linked", "github-app-installed", "first-workflow-planned",
    "activated", "suspended"]

def USER_EVENTS : List String :=
  ["email-verified", "profile-completed", "org-joined", "activated", "went-dormant", "resumed"]

def ORG_TRANSITIONS : List (String × String × String) :=
  [("created", "profile-completed", "org-profile"),
    ("org-profile", "billing-linked", "billing-linked"),
    ("billing-linked", "github-app-installed", "github-app-installed"),
    ("github-app-installed", "first-workflow-planned", "first-workflow-planned"),
    ("first-workflow-planned", "activated", "active"),
    ("created", "suspended", "suspended"),
    ("org-profile", "suspended", "suspended"),
    ("billing-linked", "suspended", "suspended"),
    ("github-app-installed", "suspended", "suspended"),
    ("first-workflow-planned", "suspended", "suspended"),
    ("active", "suspended", "suspended"),
    ("suspended", "activated", "active")]

def USER_TRANSITIONS : List (String × String × String) :=
  [("created", "email-verified", "email-verified"),
    ("email-verified", "profile-completed", "profile-complete"),
    ("profile-complete", "org-joined", "org-joined"),
    ("org-joined", "activated", "active"),
    ("created", "went-dormant", "dormant"),
    ("email-verified", "went-dormant", "dormant"),
    ("profile-complete", "went-dormant", "dormant"),
    ("org-joined", "went-dormant", "dormant"),
    ("active", "went-dormant", "dormant"),
    ("dormant", "resumed", "active")]

def advance (state event : String) (transitions : List (String × String × String))
    (events : List String) : Outcome :=
  if !events.contains event then
    .rejected "unknown-event" state
  else
    match transitions.find? (leaves state event) with
    | some (_, _, next) => .advanced next
    | none =>
      -- An event whose target is already the current state is a replay, not a fault.
      if transitions.any (enters state event) then .alreadyThere state
      else .rejected "not-allowed-here" state

def advanceOrg (state event : String) : Outcome := advance state event ORG_TRANSITIONS ORG_EVENTS

def advanceUser (state event : String) : Outcome :=
  advance state event USER_TRANSITIONS USER_EVENTS

def orgMayRunWorkflows (state : String) : Bool := state == "active"

def userIsSettled (state : String) : Bool := state == "active"

/-- A client that keeps the state it is told. -/
def hear (advance : String → String → Outcome) (state event : String) : Option (String × Outcome) :=
  some ((advance state event).state, advance state event)

/-- The reason the object gives. -/
def reason : Rejection → String
  | .unknownEvent => "unknown-event"
  | .notAllowedHere => "not-allowed-here"

/-- The object that tells an outcome reached in a state. -/
def object {σ : Type} (wire : σ → String) (s : σ) : Onboarding.Outcome σ → Outcome
  | .advanced t => .advanced (wire t)
  | .alreadyThere t => .alreadyThere (wire t)
  | .rejected r => .rejected (reason r) (wire s)

end Js

/-! ## Dart -/

namespace Dart

inductive OrgState where
  | created
  | orgProfile
  | billingLinked
  | githubAppInstalled
  | firstWorkflowPlanned
  | active
  | suspended
  deriving DecidableEq, Repr

inductive UserState where
  | created
  | emailVerified
  | profileComplete
  | orgJoined
  | active
  | dormant
  deriving DecidableEq, Repr

inductive OnboardingEvent where
  | profileCompleted
  | billingLinked
  | githubAppInstalled
  | firstWorkflowPlanned
  | activated
  | suspended
  | resumed
  | emailVerified
  | orgJoined
  | wentDormant
  deriving DecidableEq, Repr

def orgTransitions : List (OrgState × OnboardingEvent × OrgState) :=
  [(.created, .profileCompleted, .orgProfile),
    (.orgProfile, .billingLinked, .billingLinked),
    (.billingLinked, .githubAppInstalled, .githubAppInstalled),
    (.githubAppInstalled, .firstWorkflowPlanned, .firstWorkflowPlanned),
    (.firstWorkflowPlanned, .activated, .active),
    (.created, .suspended, .suspended),
    (.orgProfile, .suspended, .suspended),
    (.billingLinked, .suspended, .suspended),
    (.githubAppInstalled, .suspended, .suspended),
    (.firstWorkflowPlanned, .suspended, .suspended),
    (.active, .suspended, .suspended),
    (.suspended, .activated, .active)]

def userTransitions : List (UserState × OnboardingEvent × UserState) :=
  [(.created, .emailVerified, .emailVerified),
    (.emailVerified, .profileCompleted, .profileComplete),
    (.profileComplete, .orgJoined, .orgJoined),
    (.orgJoined, .activated, .active),
    (.created, .wentDormant, .dormant),
    (.emailVerified, .wentDormant, .dormant),
    (.profileComplete, .wentDormant, .dormant),
    (.orgJoined, .wentDormant, .dormant),
    (.active, .wentDormant, .dormant),
    (.dormant, .resumed, .active)]

def orgEvents : List OnboardingEvent :=
  [.profileCompleted, .billingLinked, .githubAppInstalled, .firstWorkflowPlanned, .activated,
    .suspended]

def userEvents : List OnboardingEvent :=
  [.emailVerified, .profileCompleted, .orgJoined, .activated, .wentDormant, .resumed]

def advanceOrg (state : OrgState) (event : OnboardingEvent) : Outcome OrgState :=
  answer state event orgTransitions orgEvents

def advanceUser (state : UserState) (event : OnboardingEvent) : Outcome UserState :=
  answer state event userTransitions userEvents

def orgMayRunWorkflows (state : OrgState) : Bool := state == .active

def userIsSettled (state : UserState) : Bool := state == .active

/-- The state of `src/onboarding.rs`. -/
def OrgState.of : Onboarding.OrgState → OrgState
  | .created => .created
  | .orgProfile => .orgProfile
  | .billingLinked => .billingLinked
  | .githubAppInstalled => .githubAppInstalled
  | .firstWorkflowPlanned => .firstWorkflowPlanned
  | .active => .active
  | .suspended => .suspended

def UserState.of : Onboarding.UserState → UserState
  | .created => .created
  | .emailVerified => .emailVerified
  | .profileComplete => .profileComplete
  | .orgJoined => .orgJoined
  | .active => .active
  | .dormant => .dormant

def OnboardingEvent.of : Event → OnboardingEvent
  | .profileCompleted => .profileCompleted
  | .billingLinked => .billingLinked
  | .githubAppInstalled => .githubAppInstalled
  | .firstWorkflowPlanned => .firstWorkflowPlanned
  | .activated => .activated
  | .suspended => .suspended
  | .resumed => .resumed
  | .emailVerified => .emailVerified
  | .orgJoined => .orgJoined
  | .wentDormant => .wentDormant

end Dart

/-! ## Gleam -/

namespace Gleam

inductive OrgState where
  | created
  | orgProfile
  | billingLinked
  | githubAppInstalled
  | firstWorkflowPlanned
  | active
  | suspended
  deriving DecidableEq, Repr

inductive UserState where
  | userCreated
  | emailVerified
  | profileComplete
  | orgJoined
  | userActive
  | dormant
  deriving DecidableEq, Repr

inductive Event where
  | profileCompleted
  | billingWasLinked
  | githubAppWasInstalled
  | firstWorkflowWasPlanned
  | activated
  | wasSuspended
  | resumed
  | emailWasVerified
  | joinedOrg
  | wentDormant
  deriving DecidableEq, Repr

def orgEvents : List Event :=
  [.profileCompleted, .billingWasLinked, .githubAppWasInstalled, .firstWorkflowWasPlanned,
    .activated, .wasSuspended]

def orgTransitions : List (OrgState × Event × OrgState) :=
  [(.created, .profileCompleted, .orgProfile),
    (.orgProfile, .billingWasLinked, .billingLinked),
    (.billingLinked, .githubAppWasInstalled, .githubAppInstalled),
    (.githubAppInstalled, .firstWorkflowWasPlanned, .firstWorkflowPlanned),
    (.firstWorkflowPlanned, .activated, .active),
    (.created, .wasSuspended, .suspended),
    (.orgProfile, .wasSuspended, .suspended),
    (.billingLinked, .wasSuspended, .suspended),
    (.githubAppInstalled, .wasSuspended, .suspended),
    (.firstWorkflowPlanned, .wasSuspended, .suspended),
    (.active, .wasSuspended, .suspended),
    (.suspended, .activated, .active)]

def userTransitions : List (UserState × Event × UserState) :=
  [(.userCreated, .emailWasVerified, .emailVerified),
    (.emailVerified, .profileCompleted, .profileComplete),
    (.profileComplete, .joinedOrg, .orgJoined),
    (.orgJoined, .activated, .userActive),
    (.userCreated, .wentDormant, .dormant),
    (.emailVerified, .wentDormant, .dormant),
    (.profileComplete, .wentDormant, .dormant),
    (.orgJoined, .wentDormant, .dormant),
    (.userActive, .wentDormant, .dormant),
    (.dormant, .resumed, .userActive)]

def userEvents : List Event :=
  [.emailWasVerified, .profileCompleted, .joinedOrg, .activated, .wentDormant, .resumed]

def advanceOrg (state : OrgState) (event : Event) : Outcome OrgState :=
  answer state event orgTransitions orgEvents

def advanceUser (state : UserState) (event : Event) : Outcome UserState :=
  answer state event userTransitions userEvents

def orgMayRunWorkflows (state : OrgState) : Bool := state == .active

def OrgState.of : Onboarding.OrgState → OrgState
  | .created => .created
  | .orgProfile => .orgProfile
  | .billingLinked => .billingLinked
  | .githubAppInstalled => .githubAppInstalled
  | .firstWorkflowPlanned => .firstWorkflowPlanned
  | .active => .active
  | .suspended => .suspended

def UserState.of : Onboarding.UserState → UserState
  | .created => .userCreated
  | .emailVerified => .emailVerified
  | .profileComplete => .profileComplete
  | .orgJoined => .orgJoined
  | .active => .userActive
  | .dormant => .dormant

def Event.of : Onboarding.Event → Event
  | .profileCompleted => .profileCompleted
  | .billingLinked => .billingWasLinked
  | .githubAppInstalled => .githubAppWasInstalled
  | .firstWorkflowPlanned => .firstWorkflowWasPlanned
  | .activated => .activated
  | .suspended => .wasSuspended
  | .resumed => .resumed
  | .emailVerified => .emailWasVerified
  | .orgJoined => .joinedOrg
  | .wentDormant => .wentDormant

end Gleam

/-! ## In lockstep -/

/-- A client that keeps the state when the machine does not move. -/
def keep {σ ε : Type} (advance : σ → ε → Outcome σ) (s : σ) (e : ε) : Option (σ × Outcome σ) :=
  match advance s e with
  | .advanced t => some (t, .advanced t)
  | o => some (s, o)

/-- The machine under the names of events: a name that is none of an event is
not part of any machine. -/
def called {σ : Type} (advance : σ → Event → Outcome σ) (s : σ) (name : String) : Outcome σ :=
  match Event.fromName name with
  | some e => advance s e
  | none => .rejected .unknownEvent

theorem follow_eq_keep {σ : Type} (advance : σ → Event → Outcome σ) (s : σ) (e : Event) :
    follow advance s e = keep advance s e := by
  unfold follow keep
  cases advance s e <;> rfl

section Lockstep

variable {σ τ δ : Type} [DecidableEq σ] [DecidableEq τ] [DecidableEq δ]

/-- A typed sibling whose table is the table under other names. -/
def typed (R : Renaming σ Event τ δ) (edges : List (σ × Event × σ)) (events : List Event) :
    Lockstep (follow fun s e => advance s e edges events)
      (keep fun s e => answer s e (edges.map R.edge) (events.map R.event)) where
  state := R.state
  event := R.event
  answer _ o := o.map R.state
  agrees s e := by
    unfold follow keep
    dsimp only
    rw [R.answer_map, ← advance_eq_answer]
    cases advance s e edges events <;> rfl

omit [DecidableEq τ] [DecidableEq δ] in
/-- An event that is a replay finds the machine in the state it answers with. -/
theorem advance_alreadyThere {s t : σ} {e : Event} {edges : List (σ × Event × σ)}
    {events : List Event} (h : advance s e edges events = .alreadyThere t) : t = s := by
  rw [advance_eq_answer] at h
  unfold answer at h
  split at h
  · cases h
  · split at h
    · cases h
    · split at h
      · cases h
        rfl
      · cases h

end Lockstep

namespace Js

/-- `advance` in TypeScript is the look-up of the table, told as an object. -/
theorem advance_eq (s e : String) (edges : List (String × String × String))
    (events : List String) : advance s e edges events = object id s (answer s e edges events) := by
  unfold advance answer
  by_cases hevent : (!events.contains e) = true
  · rw [if_pos hevent, if_pos hevent]
    rfl
  · rw [if_neg hevent, if_neg hevent]
    rcases edges.find? (leaves s e) with _ | ⟨start, f, next⟩
    · by_cases htarget : edges.any (enters s e) = true
      · simp only [if_pos htarget, object, id]
      · simp only [if_neg htarget, object, id, reason]
    · rfl

theorem object_map {σ : Type} (wire : σ → String) (s : σ) (o : Onboarding.Outcome σ) :
    object id (wire s) (o.map wire) = object wire s o := by
  cases o <;> rfl

section Untyped

variable {σ : Type} [DecidableEq σ]

/-- The states under their wire names and the events under theirs. -/
def names (wire : σ → String) (hwire : Function.Injective wire) : Renaming σ Event String String :=
  ⟨wire, Event.name, hwire, Event.name_injective⟩

theorem called_alreadyThere {s t : σ} {name : String} {edges : List (σ × Event × σ)}
    {events : List Event} (h : called (fun s e => Onboarding.advance s e edges events) s name =
      .alreadyThere t) : t = s := by
  unfold called at h
  split at h
  · exact advance_alreadyThere h
  · cases h

/-- One call: the text is the name of an event, or of none. -/
theorem advance_names (wire : σ → String) (hwire : Function.Injective wire) (s : σ)
    (name : String) (edges : List (σ × Event × σ)) (events : List Event) :
    advance (wire s) name (edges.map (names wire hwire).edge) (events.map Event.name) =
      object wire s (called (fun s e => Onboarding.advance s e edges events) s name) := by
  unfold called
  rcases hname : Event.fromName name with _ | e
  · have hunknown : (events.map Event.name).contains name = false := by
      rw [Bool.eq_false_iff]
      intro hmem
      obtain ⟨e, _, rfl⟩ := List.mem_map.mp (List.contains_iff_mem.mp hmem)
      rw [Event.fromName_eq_some_iff.mpr rfl] at hname
      cases hname
    unfold advance
    rw [hunknown]
    rfl
  · rw [Event.fromName_eq_some_iff.mp hname, advance_eq]
    have := (names wire hwire).answer_map s e edges events
    rw [show answer (wire s) e.name (edges.map (names wire hwire).edge) (events.map Event.name) =
      (answer s e edges events).map wire from this, object_map, ← advance_eq_answer]

def untyped (wire : σ → String) (hwire : Function.Injective wire)
    (edges : List (σ × Event × σ)) (events : List Event) :
    Lockstep (keep (called fun s e => Onboarding.advance s e edges events))
      (hear fun s e =>
        advance s e (edges.map (names wire hwire).edge) (events.map Event.name)) where
  state := wire
  event := id
  answer s o := object wire s o
  agrees s name := by
    unfold hear keep
    dsimp only [id]
    rw [advance_names]
    rcases ho : called (fun s e => Onboarding.advance s e edges events) s name with t | t | r
    · rfl
    · rw [called_alreadyThere ho]
      rfl
    · rfl

end Untyped

end Js

/-! ## The six machines -/

namespace Js

def org : Lockstep (keep (called OrgState.advance)) (hear advanceOrg) :=
  untyped OrgState.wire OrgState.wire_injective OrgState.transitions OrgState.EVENTS

def user : Lockstep (keep (called UserState.advance)) (hear advanceUser) :=
  untyped UserState.wire UserState.wire_injective UserState.transitions UserState.EVENTS

end Js

namespace Dart

def orgNames : Renaming Onboarding.OrgState Event OrgState OnboardingEvent where
  state := .of
  event := .of
  state_injective s t h := by cases s <;> cases t <;> first | rfl | exact absurd h (by decide)
  event_injective s t h := by cases s <;> cases t <;> first | rfl | exact absurd h (by decide)

def userNames : Renaming Onboarding.UserState Event UserState OnboardingEvent where
  state := .of
  event := .of
  state_injective s t h := by cases s <;> cases t <;> first | rfl | exact absurd h (by decide)
  event_injective := orgNames.event_injective

def org : Lockstep (follow Onboarding.OrgState.advance) (keep advanceOrg) :=
  typed orgNames Onboarding.OrgState.transitions Onboarding.OrgState.EVENTS

def user : Lockstep (follow Onboarding.UserState.advance) (keep advanceUser) :=
  typed userNames Onboarding.UserState.transitions Onboarding.UserState.EVENTS

end Dart

namespace Gleam

def orgNames : Renaming Onboarding.OrgState Onboarding.Event OrgState Event where
  state := .of
  event := .of
  state_injective s t h := by cases s <;> cases t <;> first | rfl | exact absurd h (by decide)
  event_injective s t h := by cases s <;> cases t <;> first | rfl | exact absurd h (by decide)

def userNames : Renaming Onboarding.UserState Onboarding.Event UserState Event where
  state := .of
  event := .of
  state_injective s t h := by cases s <;> cases t <;> first | rfl | exact absurd h (by decide)
  event_injective := orgNames.event_injective

def org : Lockstep (follow Onboarding.OrgState.advance) (keep advanceOrg) :=
  typed orgNames Onboarding.OrgState.transitions Onboarding.OrgState.EVENTS

def user : Lockstep (follow Onboarding.UserState.advance) (keep advanceUser) :=
  typed userNames Onboarding.UserState.transitions Onboarding.UserState.EVENTS

end Gleam

/-- A name that is none of an event is heard and changes nothing. -/
theorem final_called {σ : Type} (advance : σ → Event → Outcome σ) (s : σ) (names : List String) :
    final (keep (called advance)) s names =
      final (follow advance) s (names.filterMap Event.fromName) := by
  induction names generalizing s with
  | nil => rfl
  | cons name names ih =>
    rcases hname : Event.fromName name with _ | e
    · have hstep : keep (called advance) s name = some (s, .rejected .unknownEvent) := by
        unfold keep called
        rw [hname]
      rw [final_cons hstep, List.filterMap_cons_none hname, ih]
    · have hstep : keep (called advance) s name = follow advance s e := by
        rw [follow_eq_keep]
        unfold keep called
        rw [hname]
      have htotal : ∃ t o, follow advance s e = some (t, o) := by
        unfold follow
        cases advance s e with
        | advanced t => exact ⟨_, _, rfl⟩
        | alreadyThere t => exact ⟨_, _, rfl⟩
        | rejected r => exact ⟨_, _, rfl⟩
      obtain ⟨t, o, ho⟩ := htotal
      rw [List.filterMap_cons_some hname, final_cons (hstep.trans ho), final_cons ho, ih]

theorem orgMayRunWorkflows_agree (s : OrgState) :
    Js.orgMayRunWorkflows s.wire = s.mayRunWorkflows ∧
      Dart.orgMayRunWorkflows (.of s) = s.mayRunWorkflows ∧
      Gleam.orgMayRunWorkflows (.of s) = s.mayRunWorkflows := by
  cases s <;> decide

theorem userIsSettled_agree (s : UserState) :
    Js.userIsSettled s.wire = s.isSettled ∧ Dart.userIsSettled (.of s) = s.isSettled := by
  cases s <;> decide

/-- From every state and over every list of events each sibling gives the answers
and reaches the states of the machine it mirrors, and says the same of the state
reached.  TypeScript takes any text for an event; a text that names none leaves
the subject where it is. -/
theorem siblings_run_alike :
    Js.org.Mirrors OrgState.mayRunWorkflows Js.orgMayRunWorkflows ∧
      Js.user.Mirrors UserState.isSettled Js.userIsSettled ∧
      Dart.org.Mirrors OrgState.mayRunWorkflows Dart.orgMayRunWorkflows ∧
      Dart.user.Mirrors UserState.isSettled Dart.userIsSettled ∧
      Gleam.org.Mirrors OrgState.mayRunWorkflows Gleam.orgMayRunWorkflows ∧
      Gleam.user.Mirrors Gleam.UserState.of id ∧
      (∀ (s : OrgState) (names : List String),
        final (keep (called OrgState.advance)) s names =
          final (follow OrgState.advance) s (names.filterMap Event.fromName)) ∧
      ∀ (s : UserState) (names : List String),
        final (keep (called UserState.advance)) s names =
          final (follow UserState.advance) s (names.filterMap Event.fromName) := by
  refine ⟨?_, ?_, ?_, ?_, ?_, ?_, ?_, ?_⟩
  · exact Js.org.mirrors fun s => (orgMayRunWorkflows_agree s).1
  · exact Js.user.mirrors fun s => (userIsSettled_agree s).1
  · exact Dart.org.mirrors fun s => (orgMayRunWorkflows_agree s).2.1
  · exact Dart.user.mirrors fun s => (userIsSettled_agree s).2
  · exact Gleam.org.mirrors fun s => (orgMayRunWorkflows_agree s).2.2
  · exact Gleam.user.mirrors fun s => rfl
  · exact final_called OrgState.advance
  · exact final_called UserState.advance

end Onboarding
end IndieWorker
