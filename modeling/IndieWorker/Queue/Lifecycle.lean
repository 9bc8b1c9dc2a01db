import IndieWorker.Lib.Run
import IndieWorker.Queue.Lease

/-!
# The life of a job

`QueueState` of `src/queue.rs` and, over it, a row of the durable queue as an
adapter keeps it: the state moves along `can_transition_to` for whoever presents
the authority the row stands at, and a claim that is taken back moves the
authority on.  Whatever the workers present and in whatever order, a job has one
outcome at most, and it comes from the last of its claims.
-/

namespace IndieWorker
namespace Queue

open Run

inductive QueueState where
  | queued
  | claimed
  | running
  | succeeded
  | failed
  | cancelled
  | expired
  deriving DecidableEq, Repr

namespace QueueState

def isTerminal : QueueState → Bool
  | succeeded | failed | cancelled | expired => true
  | _ => false

def canTransitionTo : QueueState → QueueState → Bool
  | queued, claimed | queued, cancelled | queued, expired => true
  | claimed, running | claimed, queued | claimed, cancelled | claimed, expired => true
  | running, succeeded | running, failed | running, cancelled | running, expired => true
  | _, _ => false

/-- The terminal states are those nothing leads out of. -/
theorem isTerminal_iff (s : QueueState) :
    s.isTerminal = true ↔ ∀ t, s.canTransitionTo t = false := by
  constructor
  · intro h t
    cases s <;> cases t <;> first | rfl | cases h
  · intro h
    cases s
    · exact absurd (h claimed) (by decide)
    · exact absurd (h running) (by decide)
    · exact absurd (h succeeded) (by decide)
    all_goals rfl

/-- Only a claim that is not yet running can be taken back. -/
theorem canTransitionTo_queued {s : QueueState} (h : s.canTransitionTo queued = true) :
    s = claimed := by
  cases s <;> first | rfl | cases h

/-- Work that was never started has no success and no failure. -/
theorem running_of_worked {s t : QueueState} (h : s.canTransitionTo t = true)
    (ht : t = succeeded ∨ t = failed) : s = running := by
  rcases ht with rfl | rfl <;> cases s <;> first | rfl | cases h

theorem claimed_of_running {s : QueueState} (h : s.canTransitionTo running = true) :
    s = claimed := by
  cases s <;> first | rfl | cases h

end QueueState

/-- A row of the durable queue. -/
structure Row where
  state : QueueState
  authority : LeaseAuthority
  deriving DecidableEq, Repr

/-- What can happen to a row: someone presents an authority and the state the job
is to move to, or the control plane takes a claim back. -/
inductive Call where
  | publish (presented : LeaseAuthority) (next : QueueState)
  | requeue
  deriving DecidableEq, Repr

namespace Row

def enqueued : Row := ⟨.queued, .initial⟩

/-- A row moves where the table and the lease allow it; the way back to the queue
goes with a new authority and no other way does. -/
def call (row : Row) : Call → Option (Row × Bool)
  | .publish presented next =>
    if row.authority.authorizes presented ∧ row.state.canTransitionTo next ∧ next ≠ .queued then
      some ({ row with state := next }, true)
    else some (row, false)
  | .requeue =>
    if row.state.canTransitionTo .queued then
      match row.authority.reclaim with
      | some authority => some (⟨.queued, authority⟩, true)
      | none => some (row, false)
    else some (row, false)

/-- What a call can do to a row. -/
theorem call_cases {row row' : Row} {c : Call} {moved : Bool}
    (h : row.call c = some (row', moved)) :
    (moved = false ∧ row' = row) ∨
      (∃ next, c = .publish row.authority next ∧ moved = true ∧
        row.state.canTransitionTo next = true ∧ next ≠ .queued ∧
        row' = ⟨next, row.authority⟩) ∨
      (∃ authority, c = .requeue ∧ moved = true ∧ row.state = .claimed ∧
        row.authority.reclaim = some authority ∧ row' = ⟨.queued, authority⟩) := by
  cases c with
  | publish presented next =>
    simp only [call] at h
    by_cases hallowed : row.authority.authorizes presented ∧ row.state.canTransitionTo next ∧
        next ≠ .queued
    · rw [if_pos hallowed] at h
      cases h
      have hsame := LeaseAuthority.authorizes_iff.mp hallowed.1
      exact Or.inr (Or.inl ⟨next, by rw [hsame], rfl, hallowed.2.1, hallowed.2.2, rfl⟩)
    · rw [if_neg hallowed] at h
      cases h
      exact Or.inl ⟨rfl, rfl⟩
  | requeue =>
    simp only [call] at h
    by_cases hback : row.state.canTransitionTo .queued = true
    · rw [if_pos hback] at h
      rcases hreclaim : row.authority.reclaim with _ | authority
      · rw [hreclaim] at h
        cases h
        exact Or.inl ⟨rfl, rfl⟩
      · rw [hreclaim] at h
        cases h
        exact Or.inr (Or.inr ⟨authority, rfl, rfl, QueueState.canTransitionTo_queued hback,
          rfl, rfl⟩)
    · rw [if_neg hback] at h
      cases h
      exact Or.inl ⟨rfl, rfl⟩

abbrev Step := Entry Row Call Bool

def history (calls : List Call) : List Step := trace call enqueued calls

def after (calls : List Call) : Row := final call enqueued calls

/-- A claim is taken back. -/
def TakesBack (x : Step) : Prop := x.event = .requeue ∧ x.output = true

/-- The call published the state under the authority, and the row moved. -/
def Published (h : List Step) (authority : LeaseAuthority) (state : QueueState) : Prop :=
  ∃ x ∈ h, x.event = .publish authority state ∧ x.output = true

/-- The steps that gave the job an outcome. -/
def outcomes (h : List Step) : List Step := h.filter fun x => x.output && x.after.state.isTerminal

theorem Published.append {h : List Step} {a : LeaseAuthority} {s : QueueState}
    (hp : Published h a s) (x : Step) : Published (h ++ [x]) a s := by
  obtain ⟨y, hy, hevent⟩ := hp
  exact ⟨y, List.mem_append_left _ hy, hevent⟩

/-- What the history tells of the row it led to. -/
structure Lived (h : List Step) (row : Row) : Prop where
  older : ∀ x ∈ h, TakesBack x →
    x.before.authority.generation.toNat < row.authority.generation.toNat
  claimed : row.state = .claimed ∨ row.state = .running ∨ row.state = .succeeded ∨
    row.state = .failed → Published h row.authority .claimed
  running : row.state = .running ∨ row.state = .succeeded ∨ row.state = .failed →
    Published h row.authority .running
  worked : row.state = .succeeded ∨ row.state = .failed → Published h row.authority row.state
  pending : row.state.isTerminal = false → outcomes h = []
  settled : row.state.isTerminal = true → ∃ x, outcomes h = [x] ∧ x.after = row

theorem lived_enqueued : Lived [] enqueued where
  older x hx := absurd hx List.not_mem_nil
  claimed h := absurd h (by decide)
  running h := absurd h (by decide)
  worked h := absurd h (by decide)
  pending _ := rfl
  settled h := absurd h (by decide)

/-- A refused call leaves the row and its life as they are. -/
theorem Lived.refused {h : List Step} {row : Row} (hl : Lived h row) (c : Call) :
    Lived (h ++ [⟨row, c, false, row⟩]) row := by
  have hsame : outcomes (h ++ [⟨row, c, false, row⟩]) = outcomes h := by
    simp [outcomes]
  constructor
  · intro x hx hback
    rcases List.mem_append.mp hx with hx | hx
    · exact hl.older x hx hback
    · rw [List.mem_singleton.mp hx] at hback
      exact absurd hback.2 Bool.false_ne_true
  · exact fun h => (hl.claimed h).append _
  · exact fun h => (hl.running h).append _
  · exact fun h => (hl.worked h).append _
  · rw [hsame]
    exact hl.pending
  · rw [hsame]
    exact hl.settled

/-- A row that moved by a publication: the state before it was not terminal, and
what the new state needs to have been published was published by the same
authority. -/
theorem Lived.published {h : List Step} {row : Row} (hl : Lived h row) {next : QueueState}
    (hnext : row.state.canTransitionTo next = true) (hne : next ≠ .queued) :
    Lived (h ++ [⟨row, .publish row.authority next, true, ⟨next, row.authority⟩⟩])
      ⟨next, row.authority⟩ := by
  have hlive : row.state.isTerminal = false := by
    rw [Bool.eq_false_iff]
    intro hterminal
    rw [(QueueState.isTerminal_iff row.state).mp hterminal next] at hnext
    cases hnext
  have hlast : Published
      (h ++ [⟨row, .publish row.authority next, true, ⟨next, row.authority⟩⟩])
      row.authority next := ⟨_, List.mem_append_right _ (List.mem_singleton_self _), rfl, rfl⟩
  constructor
  · intro x hx hback
    rcases List.mem_append.mp hx with hx | hx
    · exact hl.older x hx hback
    · rw [List.mem_singleton.mp hx] at hback
      cases hback.1
  · intro hstate
    rcases hstate with heq | heq | heq
    · cases heq
      exact hlast
    · cases heq
      exact (hl.claimed (Or.inl (QueueState.claimed_of_running hnext))).append _
    · have hrunning := QueueState.running_of_worked hnext heq
      exact (hl.claimed (Or.inr (Or.inl hrunning))).append _
  · intro hstate
    rcases hstate with heq | heq
    · cases heq
      exact hlast
    · have hrunning := QueueState.running_of_worked hnext heq
      exact (hl.running (Or.inl hrunning)).append _
  · exact fun _ => hlast
  · intro hopen
    rw [outcomes, List.filter_append, ← outcomes, hl.pending hlive]
    simpa using hopen
  · intro hclosed
    refine ⟨⟨row, .publish row.authority next, true, ⟨next, row.authority⟩⟩, ?_, rfl⟩
    rw [outcomes, List.filter_append, ← outcomes, hl.pending hlive]
    simpa using hclosed

/-- A claim taken back moves the authority on. -/
theorem Lived.requeued {h : List Step} {row : Row} (hl : Lived h row)
    (hclaimed : row.state = .claimed) {authority : LeaseAuthority}
    (hreclaim : row.authority.reclaim = some authority) :
    Lived (h ++ [⟨row, .requeue, true, ⟨.queued, authority⟩⟩]) ⟨.queued, authority⟩ := by
  have hahead := (LeaseAuthority.reclaim_eq_some_iff.mp hreclaim).generation
  constructor
  · intro x hx hback
    show x.before.authority.generation.toNat < authority.generation.toNat
    rcases List.mem_append.mp hx with hx | hx
    · have := hl.older x hx hback
      omega
    · rw [List.mem_singleton.mp hx]
      show row.authority.generation.toNat < authority.generation.toNat
      omega
  · exact fun hstate => absurd hstate (by simp)
  · exact fun hstate => absurd hstate (by simp)
  · exact fun hstate => absurd hstate (by simp)
  · intro _
    rw [outcomes, List.filter_append, ← outcomes, hl.pending (by rw [hclaimed]; rfl)]
    rfl
  · exact fun hstate => absurd hstate (by simp [QueueState.isTerminal])

theorem lived_step {h : List Step} {row row' : Row} {c : Call} {moved : Bool} (hl : Lived h row)
    (hcall : row.call c = some (row', moved)) : Lived (h ++ [⟨row, c, moved, row'⟩]) row' := by
  rcases call_cases hcall with ⟨rfl, rfl⟩ | ⟨next, rfl, rfl, hnext, hne, rfl⟩ |
    ⟨authority, rfl, rfl, hclaimed, hreclaim, rfl⟩
  · exact hl.refused c
  · exact hl.published hnext hne
  · exact hl.requeued hclaimed hreclaim

theorem lived_after (calls : List Call) : Lived (history calls) (after calls) :=
  history_invariant_start Lived lived_enqueued (fun _ _ _ _ _ hl hcall => lived_step hl hcall) calls

/-- Once a claim has been taken back, no authority from that time or before is
honoured. -/
theorem stale_refused (calls : List Call) :
    (history calls).Pairwise fun x y => TakesBack x → ∀ presented next,
      presented.generation ≤ x.before.authority.generation → y.event = .publish presented next →
        y.output = false := by
  refine (history_invariant_start (fun h row => Lived h row ∧
    h.Pairwise fun x y => TakesBack x → ∀ presented next,
      presented.generation ≤ x.before.authority.generation → y.event = .publish presented next →
        y.output = false) ⟨lived_enqueued, List.Pairwise.nil⟩ ?_ calls).2
  intro h row c row' moved ⟨hl, hpairs⟩ hcall
  refine ⟨lived_step hl hcall, List.pairwise_append.mpr ⟨hpairs, List.pairwise_singleton _ _, ?_⟩⟩
  intro x hx y hy hback presented next hle hpublish
  rw [List.mem_singleton] at hy
  subst hy
  have holder := hl.older x hx hback
  rw [UInt64.le_iff_toNat_le] at hle
  rcases call_cases hcall with ⟨hrefused, _⟩ | ⟨n, hc, _⟩ | ⟨authority, hc, _⟩
  · exact hrefused
  · dsimp only at hpublish
    rw [hc] at hpublish
    cases hpublish
    omega
  · dsimp only at hpublish
    rw [hc] at hpublish
    cases hpublish

/-- Whatever is presented to a row and in whatever order: it is given at most one
outcome, which stands from then on; a success or a failure was claimed, started
and published under one authority, the last the row stood at; and once a claim
has been taken back no earlier authority is honoured. -/
theorem one_outcome (calls : List Call) :
    (outcomes (history calls)).length ≤ 1 ∧
      (∀ x ∈ outcomes (history calls), after calls = x.after) ∧
      ((after calls).state = .succeeded ∨ (after calls).state = .failed →
        Published (history calls) (after calls).authority .claimed ∧
          Published (history calls) (after calls).authority .running ∧
          Published (history calls) (after calls).authority (after calls).state) ∧
      (history calls).Pairwise fun x y => TakesBack x → ∀ presented next,
        presented.generation ≤ x.before.authority.generation →
          y.event = .publish presented next → y.output = false := by
  have hl := lived_after calls
  have hone : outcomes (history calls) = [] ∨
      ∃ x, outcomes (history calls) = [x] ∧ x.after = after calls := by
    rcases hstate : (after calls).state.isTerminal with _ | _
    · exact Or.inl (hl.pending hstate)
    · exact Or.inr (hl.settled hstate)
  refine ⟨?_, fun x hx => ?_, fun hworked => ?_, stale_refused calls⟩
  · rcases hone with hnone | ⟨x, hx, _⟩
    · rw [hnone]
      exact Nat.zero_le 1
    · rw [hx]
      exact Nat.le_refl 1
  · rcases hone with hnone | ⟨y, hy, hafter⟩
    · rw [hnone] at hx
      exact absurd hx List.not_mem_nil
    · rw [hy, List.mem_singleton] at hx
      rw [hx, hafter]
  · exact ⟨hl.claimed (Or.inr (Or.inr hworked)), hl.running (Or.inr hworked), hl.worked hworked⟩

/-- A job claimed, taken back and claimed again. -/
theorem one_outcome_second_claim :
    let calls : List Call := [.publish ⟨1, 1, 1⟩ .claimed, .requeue, .publish ⟨1, 1, 1⟩ .running,
      .publish ⟨2, 2, 2⟩ .claimed, .publish ⟨2, 2, 2⟩ .running, .publish ⟨2, 2, 2⟩ .succeeded]
    Published (history calls) ⟨2, 2, 2⟩ .claimed :=
  ((one_outcome _).2.2.1 (Or.inl (by decide))).1

end Row

end Queue
end IndieWorker
