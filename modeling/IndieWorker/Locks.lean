import IndieWorker.Lib.Overflow
import Mathlib.Logic.Function.Basic

/-!
# The locking boundary

The vocabulary, the two in-process providers and the composition of
`src/locks.rs`.  Clones of a provider share one table, so providers live in a
store and a name stands for the state its clones share; one name may be handed
out under both roles.
-/

namespace IndieWorker
namespace Locks

/-- In nanoseconds. -/
abbrev Duration := Nat

/-- What a caller wants to hold. -/
structure LockRequest where
  key : String
  ttl : Duration
  wait : Duration
  owner : String
  deriving DecidableEq, Repr

/-- A try-once request with a 30 second lease. -/
def LockRequest.tryOnce (key owner : String) : LockRequest := ⟨key, 30 * 10 ^ 9, 0, owner⟩

/-- A granted lease. -/
structure LockLease where
  key : String
  owner : String
  fence : Option UInt64
  ttl : Duration
  deriving DecidableEq, Repr

def LockLease.isFenced (l : LockLease) : Bool := l.fence.isSome

/-- Why an acquisition or release failed. -/
inductive LockError where
  | contended (key : String)
  | expired (key : String)
  | unavailable (key detail : String)
  | fencingRequired (key : String)
  deriving DecidableEq, Repr

/-- Which providers a deployment has enabled. -/
structure LockPolicy where
  fiduciaEnabled : Bool := false
  pgAdvisoryEnabled : Bool := false
  requireFencing : Bool := false
  deriving DecidableEq, Repr

def LockPolicy.isCoordinated (p : LockPolicy) : Bool := p.fiduciaEnabled || p.pgAdvisoryEnabled

/-! ## Providers -/

/-- Who holds each key. -/
abbrev Table := String → Option String

/-- Nothing panics while the table is locked, so its mutex is never poisoned. -/
structure InMemoryLockProvider where
  held : Table

namespace InMemoryLockProvider

def acquire (p : InMemoryLockProvider) (request : LockRequest) :
    InMemoryLockProvider × Except LockError LockLease :=
  if (p.held request.key).isSome then (p, .error (.contended request.key))
  else (⟨Function.update p.held request.key (some request.owner)⟩,
    .ok ⟨request.key, request.owner, none, request.ttl⟩)

def renew (p : InMemoryLockProvider) (lease : LockLease) : Except LockError LockLease :=
  if p.held lease.key = some lease.owner then .ok lease else .error (.expired lease.key)

def release (p : InMemoryLockProvider) (lease : LockLease) :
    InMemoryLockProvider × Except LockError Unit :=
  if p.held lease.key = some lease.owner then
    (⟨Function.update p.held lease.key none⟩, .ok ())
  else (p, .error (.expired lease.key))

end InMemoryLockProvider

/-- The fence counter has a mutex of its own, poisoned when the addition under
it panics. -/
structure FencingTestProvider where
  inner : InMemoryLockProvider
  nextFence : UInt64
  poisoned : Bool

namespace FencingTestProvider

/-- Answers `none` where the call panics. -/
def acquire (b : Build) (p : FencingTestProvider) (request : LockRequest) :
    FencingTestProvider × Option (Except LockError LockLease) :=
  match p.inner.acquire request with
  | (inner, .error e) => (⟨inner, p.nextFence, p.poisoned⟩, some (.error e))
  | (inner, .ok lease) =>
    if p.poisoned then
      (⟨inner, p.nextFence, true⟩,
        some (.error (.unavailable request.key "fence counter is poisoned")))
    else
      match b.add p.nextFence 1 with
      | none => (⟨inner, p.nextFence, true⟩, none)
      | some next => (⟨inner, next, false⟩, some (.ok { lease with fence := some next }))

def renew (p : FencingTestProvider) (lease : LockLease) : Except LockError LockLease := do
  let l ← p.inner.renew lease
  return { l with fence := lease.fence }

def release (p : FencingTestProvider) (lease : LockLease) :
    FencingTestProvider × Except LockError Unit :=
  let (inner, answer) := p.inner.release lease
  (⟨inner, p.nextFence, p.poisoned⟩, answer)

end FencingTestProvider

/-- A provider from outside the crate, by what it answers at the moment. -/
structure ForeignLockProvider where
  acquire : LockRequest → Option (Except LockError LockLease)
  release : LockLease → Except LockError Unit

inductive Provider where
  | inMemory (p : InMemoryLockProvider)
  | fencing (p : FencingTestProvider)
  | foreign (p : ForeignLockProvider)

namespace Provider

def acquire (b : Build) (request : LockRequest) :
    Provider → Provider × Option (Except LockError LockLease)
  | inMemory p => (inMemory (p.acquire request).1, some (p.acquire request).2)
  | fencing p => (fencing (p.acquire b request).1, (p.acquire b request).2)
  | foreign p => (foreign p, p.acquire request)

def release (lease : LockLease) : Provider → Provider × Except LockError Unit
  | inMemory p => (inMemory (p.release lease).1, (p.release lease).2)
  | fencing p => (fencing (p.release lease).1, (p.release lease).2)
  | foreign p => (foreign p, p.release lease)

/-- The in-memory table of a provider that has one. -/
def table : Provider → Table
  | inMemory p => p.held
  | fencing p => p.inner.held
  | foreign _ => fun _ => none

def isLocal : Provider → Bool
  | inMemory _ => true
  | fencing _ => true
  | foreign _ => false

end Provider

/-! ## What a provider does to its table -/

namespace InMemoryLockProvider

variable {request : LockRequest} {p : InMemoryLockProvider}

theorem acquire_of_held (h : (p.held request.key).isSome = true) :
    p.acquire request = (p, .error (.contended request.key)) :=
  if_pos h

theorem acquire_of_free (h : p.held request.key = none) :
    p.acquire request = (⟨Function.update p.held request.key (some request.owner)⟩,
      .ok ⟨request.key, request.owner, none, request.ttl⟩) := by
  unfold acquire
  rw [h]
  exact if_neg Bool.false_ne_true

end InMemoryLockProvider

namespace Provider

variable {b : Build} {request : LockRequest} {lease : LockLease} {p : Provider}

/-- The lease a provider has just granted. -/
def issued (request : LockRequest) : Provider → LockLease
  | fencing p => ⟨request.key, request.owner, some p.nextFence, request.ttl⟩
  | _ => ⟨request.key, request.owner, none, request.ttl⟩

theorem issued_key (p : Provider) : (p.issued request).key = request.key := by
  cases p <;> rfl

theorem issued_owner (p : Provider) : (p.issued request).owner = request.owner := by
  cases p <;> rfl

theorem acquire_isLocal : (p.acquire b request).1.isLocal = p.isLocal := by
  cases p <;> rfl

theorem release_isLocal : (p.release lease).1.isLocal = p.isLocal := by
  cases p <;> rfl

/-- A key that is held is refused and nothing changes. -/
theorem acquire_of_held (hlocal : p.isLocal = true) (h : (p.table request.key).isSome = true) :
    p.acquire b request = (p, some (.error (.contended request.key))) := by
  cases p with
  | inMemory p =>
    rw [acquire, InMemoryLockProvider.acquire_of_held h]
  | fencing p =>
    simp only [acquire, FencingTestProvider.acquire, InMemoryLockProvider.acquire_of_held h]
  | foreign p => cases hlocal

/-- A key that is free is entered in the table, whatever the answer.  Only a
poisoned counter makes the answer an error. -/
theorem acquire_of_free (hlocal : p.isLocal = true) (h : p.table request.key = none) :
    (p.acquire b request).1.table =
        Function.update p.table request.key (some request.owner) ∧
      (∀ e, (p.acquire b request).2 = some (.error e) →
        ∃ detail, e = .unavailable request.key detail) ∧
      (∀ l, (p.acquire b request).2 = some (.ok l) →
        l = (p.acquire b request).1.issued request) := by
  cases p with
  | inMemory p =>
    simp only [acquire, InMemoryLockProvider.acquire_of_free h]
    refine ⟨rfl, fun e he => by simp at he, fun l hl => ?_⟩
    simp only [Option.some.injEq, Except.ok.injEq] at hl
    exact hl.symm
  | fencing p =>
    simp only [acquire, FencingTestProvider.acquire, InMemoryLockProvider.acquire_of_free h]
    split
    · refine ⟨rfl, fun e he => ?_, fun l hl => by simp at hl⟩
      simp only [Option.some.injEq, Except.error.injEq] at he
      exact ⟨_, he.symm⟩
    · split
      · exact ⟨rfl, fun e he => by simp at he, fun l hl => by simp at hl⟩
      · refine ⟨rfl, fun e he => by simp at he, fun l hl => ?_⟩
        simp only [Option.some.injEq, Except.ok.injEq] at hl
        exact hl.symm
  | foreign p => cases hlocal

/-- An entry is removed for the owner it names. -/
theorem release_table : (p.release lease).1.table =
    if p.table lease.key = some lease.owner then Function.update p.table lease.key none
    else p.table := by
  cases p with
  | inMemory p =>
    show (p.release lease).1.held = if p.held lease.key = some lease.owner then _ else p.held
    unfold InMemoryLockProvider.release
    split <;> rfl
  | fencing p =>
    show (p.inner.release lease).1.held =
      if p.inner.held lease.key = some lease.owner then _ else p.inner.held
    unfold InMemoryLockProvider.release
    split <;> rfl
  | foreign p => rfl

end Provider

/-! ## Composition -/

abbrev Store (ι : Type) := ι → Provider

structure CompositeLockProvider (ι : Type) where
  policy : LockPolicy
  outer : Option ι
  inner : Option ι
  deriving DecidableEq, Repr

abbrev Held (ι : Type) := List (ι × LockLease)

namespace CompositeLockProvider

variable {ι : Type}

/-- A disabled provider is dropped even if supplied. -/
def new (policy : LockPolicy) (outer inner : Option ι) : CompositeLockProvider ι :=
  { policy := policy
    outer := if policy.fiduciaEnabled then outer else none
    inner := if policy.pgAdvisoryEnabled then inner else none }

/-- The providers in the order in which they are taken. -/
def providers (c : CompositeLockProvider ι) : List ι := c.outer.toList ++ c.inner.toList

/-- Refuse to go on without a fencing token that the policy demands. -/
def lacksFence (c : CompositeLockProvider ι) (held : Held ι) : Bool :=
  c.policy.requireFencing && !held.any fun h => h.2.isFenced

end CompositeLockProvider

section Store

variable {ι : Type} [DecidableEq ι]

def Store.release (s : Store ι) (h : ι × LockLease) : Store ι :=
  Function.update s h.1 ((s h.1).release h.2).1

/-- Release from the end; what a release answers is ignored. -/
def releaseAll (held : Held ι) (s : Store ι) : Store ι := held.foldr (fun h s => s.release h) s

/-- Take the providers one after the other on top of what is held. -/
def acquireAll (b : Build) (request : LockRequest) :
    List ι → Held ι → Store ι → Store ι × Option (Except LockError (Held ι))
  | [], held, s => (s, some (.ok held))
  | p :: rest, held, s =>
    match (s p).acquire b request with
    | (p', none) => (Function.update s p p', none)
    | (p', some (.error e)) => (releaseAll held (Function.update s p p'), some (.error e))
    | (p', some (.ok lease)) =>
      acquireAll b request rest (held ++ [(p, lease)]) (Function.update s p p')

/-- A closure that runs under the lock.  It may change any provider and a world
of its own, and answers `none` where it panics. -/
abbrev Work (ι ω ε τ : Type) :=
  List LockLease → Store ι × ω → (Store ι × ω) × Option (Except ε τ)

/-- Answers `none` where the call panics. -/
def CompositeLockProvider.withLock {ω ε τ : Type} (b : Build) (c : CompositeLockProvider ι)
    (request : LockRequest) (work : Work ι ω ε τ) (world : Store ι × ω) :
    (Store ι × ω) × Option (Except LockError (Except ε τ)) :=
  match acquireAll b request c.providers [] world.1 with
  | (s, none) => ((s, world.2), none)
  | (s, some (.error e)) => ((s, world.2), some (.error e))
  | (s, some (.ok held)) =>
    if c.lacksFence held then
      ((releaseAll held s, world.2), some (.error (.fencingRequired request.key)))
    else
      match work (held.map Prod.snd) (s, world.2) with
      | (after, none) => (after, none)
      | (after, some outcome) => ((releaseAll held after.1, after.2), some (.ok outcome))

end Store

end Locks
end IndieWorker
