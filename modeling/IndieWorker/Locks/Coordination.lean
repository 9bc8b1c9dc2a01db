import IndieWorker.Locks

/-!
# Coordination

The composition over providers of any behaviour: a provider may change whatever it
shares with the others, refuse, or panic.  What is held when the work is called is
seen by watching the providers, which changes nothing of what they do.
-/

namespace IndieWorker
namespace Locks

/-- The part of a provider that a composite calls, over a world the providers share.
A call answers `none` where it panics. -/
structure LockProvider (σ : Type) where
  acquire : LockRequest → σ → σ × Option (Except LockError LockLease)
  release : LockLease → σ → σ × Option (Except LockError Unit)

namespace LockProvider

variable {ι σ ε τ α : Type}

/-- Release one after the other; what a release answers is ignored. -/
def releaseEach (P : ι → LockProvider σ) : Held ι → σ → σ × Option Unit
  | [], s => (s, some ())
  | (i, lease) :: rest, s =>
    match (P i).release lease s with
    | (s', none) => (s', none)
    | (s', some _) => releaseEach P rest s'

/-- Release from the end. -/
def releaseAll (P : ι → LockProvider σ) (held : Held ι) (s : σ) : σ × Option Unit :=
  releaseEach P held.reverse s

/-- Release everything and answer. -/
def finish (P : ι → LockProvider σ) (held : Held ι) (answer : α) (s : σ) : σ × Option α :=
  ((releaseAll P held s).1, (releaseAll P held s).2.map fun _ => answer)

/-- Take the providers one after the other on top of what is held. -/
def acquireAll (P : ι → LockProvider σ) (request : LockRequest) :
    List ι → Held ι → σ → σ × Option (Except LockError (Held ι))
  | [], held, s => (s, some (.ok held))
  | i :: rest, held, s =>
    match (P i).acquire request s with
    | (s', none) => (s', none)
    | (s', some (.error e)) => finish P held (.error e) s'
    | (s', some (.ok lease)) => acquireAll P request rest (held ++ [(i, lease)]) s'

abbrev Work (σ ε τ : Type) := List LockLease → σ → σ × Option (Except ε τ)

def withLock (P : ι → LockProvider σ) (c : CompositeLockProvider ι) (request : LockRequest)
    (work : Work σ ε τ) (s : σ) : σ × Option (Except LockError (Except ε τ)) :=
  match acquireAll P request c.providers [] s with
  | (s', none) => (s', none)
  | (s', some (.error e)) => (s', some (.error e))
  | (s', some (.ok held)) =>
    if c.lacksFence held then finish P held (.error (.fencingRequired request.key)) s'
    else
      match work (held.map Prod.snd) s' with
      | (s'', none) => (s'', none)
      | (s'', some outcome) => finish P held (.ok outcome) s''

/-! ## The providers of a store -/

section Store

variable {ω : Type} [DecidableEq ι]

/-- A provider of a store, as the composite calls it. -/
def stored (b : Build) (i : ι) : LockProvider (Store ι × ω) where
  acquire request world :=
    ((Function.update world.1 i ((world.1 i).acquire b request).1, world.2),
      ((world.1 i).acquire b request).2)
  release lease world :=
    ((world.1.release (i, lease), world.2), some ((world.1 i).release lease).2)

variable {b : Build}

theorem releaseEach_stored (held : Held ι) (world : Store ι × ω) :
    releaseEach (stored b) held world =
      ((held.foldl (fun s h => s.release h) world.1, world.2), some ()) := by
  induction held generalizing world with
  | nil => rfl
  | cons h rest ih => exact ih _

theorem finish_stored (held : Held ι) (answer : α) (world : Store ι × ω) :
    finish (stored b) held answer world =
      ((Locks.releaseAll held world.1, world.2), some answer) := by
  rw [finish, releaseAll, releaseEach_stored, List.foldl_reverse]
  rfl

theorem acquireAll_stored (request : LockRequest) (rest : List ι) (held : Held ι)
    (world : Store ι × ω) :
    acquireAll (stored b) request rest held world =
      (((Locks.acquireAll b request rest held world.1).1, world.2),
        (Locks.acquireAll b request rest held world.1).2) := by
  induction rest generalizing held world with
  | nil => rfl
  | cons i rest ih =>
    rw [acquireAll, Locks.acquireAll]
    dsimp only [stored]
    rcases (world.1 i).acquire b request with ⟨p, _ | e | lease⟩
    · rfl
    · exact finish_stored held _ _
    · exact ih _ _

/-- Over a store, both readings of the composition agree. -/
theorem withLock_stored (c : CompositeLockProvider ι) (request : LockRequest)
    (work : Locks.Work ι ω ε τ) (world : Store ι × ω) :
    withLock (stored b) c request work world = c.withLock b request work world := by
  rw [withLock, CompositeLockProvider.withLock, acquireAll_stored]
  rcases Locks.acquireAll b request c.providers [] world.1 with ⟨s, _ | e | held⟩
  · rfl
  · rfl
  · dsimp only
    split
    · exact finish_stored held _ _
    · rcases work (held.map Prod.snd) (s, world.2) with ⟨after, _ | outcome⟩
      · rfl
      · exact finish_stored held _ _

end Store

/-! ## What is held when the work is called -/

/-- What the composite holds now, and what it held and passed on at each call of the
work. -/
structure Watch (ι : Type) where
  holding : Held ι
  calls : List (Held ι × List LockLease)

def Watch.start : Watch ι := ⟨[], []⟩

section Watch

variable [DecidableEq ι]

def watch (P : ι → LockProvider σ) (i : ι) : LockProvider (Watch ι × σ) where
  acquire request w :=
    match (P i).acquire request w.2 with
    | (s, some (.ok lease)) => ((⟨w.1.holding ++ [(i, lease)], w.1.calls⟩, s), some (.ok lease))
    | (s, answer) => ((w.1, s), answer)
  release lease w :=
    ((⟨w.1.holding.erase (i, lease), w.1.calls⟩, ((P i).release lease w.2).1),
      ((P i).release lease w.2).2)

def watchWork (work : Work σ ε τ) : Work (Watch ι × σ) ε τ := fun leases w =>
  ((⟨w.1.holding, w.1.calls ++ [(w.1.holding, leases)]⟩, (work leases w.2).1),
    (work leases w.2).2)

end Watch

/-- What the providers grant when they are asked in turn, if all of them do. -/
def grants (P : ι → LockProvider σ) (request : LockRequest) : List ι → σ → Option (Held ι)
  | [], _ => some []
  | i :: rest, s =>
    match (P i).acquire request s with
    | (s', some (.ok lease)) => (grants P request rest s').map ((i, lease) :: ·)
    | _ => none

/-- What the composite is granted, where all its providers grant and the fence is there
that the policy demands. -/
def granted (P : ι → LockProvider σ) (c : CompositeLockProvider ι) (request : LockRequest)
    (s : σ) : Option (Held ι) :=
  (grants P request c.providers s).filter fun held => !c.lacksFence held

variable {P : ι → LockProvider σ} {c : CompositeLockProvider ι} {request : LockRequest}
  {work : Work σ ε τ} {is : List ι} {held held' : Held ι} {s : σ}

theorem map_fst_of_grants (h : grants P request is s = some held) : held.map Prod.fst = is := by
  induction is generalizing held s with
  | nil =>
    cases h
    rfl
  | cons i is ih =>
    rw [grants] at h
    split at h
    · obtain ⟨rest, hrest, rfl⟩ := Option.map_eq_some_iff.mp h
      rw [List.map_cons, ih hrest]
    · cases h

theorem finish_eq_some {answer : α} {x : α} (h : (finish P held answer s).2 = some x) :
    x = answer := by
  obtain ⟨_, _, hx⟩ := Option.map_eq_some_iff.mp h
  exact hx.symm

/-- Everything is held exactly when every provider grants. -/
theorem acquireAll_eq_ok_iff : (acquireAll P request is held s).2 = some (.ok held') ↔
    ∃ more, grants P request is s = some more ∧ held' = held ++ more := by
  induction is generalizing held s with
  | nil =>
    rw [acquireAll, grants]
    constructor
    · intro h
      cases h
      refine ⟨[], rfl, ?_⟩
      rw [List.append_nil]
    · intro h
      obtain ⟨more, hmore, hheld⟩ := h
      cases hmore
      rw [hheld, List.append_nil]
  | cons i is ih =>
    rw [acquireAll, grants]
    rcases (P i).acquire request s with ⟨s', _ | e | lease⟩
    · exact iff_of_false nofun nofun
    · refine iff_of_false (fun h => ?_) nofun
      cases finish_eq_some h
    · dsimp only
      rw [ih]
      constructor
      · intro h
        obtain ⟨more, hmore, hheld⟩ := h
        refine ⟨(i, lease) :: more, by rw [hmore, Option.map_some], ?_⟩
        rw [hheld, List.append_assoc]
        rfl
      · intro h
        obtain ⟨more, hmore, hheld⟩ := h
        obtain ⟨rest, hrest, rfl⟩ := Option.map_eq_some_iff.mp hmore
        refine ⟨rest, hrest, ?_⟩
        rw [hheld, List.append_assoc]
        rfl

/-- The leases that the composite goes on with are those that all providers granted. -/
theorem grants_eq_some_iff : grants P request c.providers s = some held ↔
    (acquireAll P request c.providers [] s).2 = some (.ok held) := by
  rw [acquireAll_eq_ok_iff]
  constructor
  · intro h
    exact ⟨held, h, rfl⟩
  · intro h
    obtain ⟨more, hmore, hheld⟩ := h
    rw [hheld]
    exact hmore

theorem granted_of_not_ok
    (h : ∀ held, (acquireAll P request c.providers [] s).2 ≠ some (.ok held)) :
    granted P c request s = none := by
  refine Option.filter_eq_none_iff.mpr fun held hheld => ?_
  exact absurd (grants_eq_some_iff.mp hheld) (h held)

theorem granted_of_ok (h : (acquireAll P request c.providers [] s).2 = some (.ok held)) :
    granted P c request s = if c.lacksFence held then none else some held := by
  rw [granted, grants_eq_some_iff.mpr h, Option.filter_some]
  cases c.lacksFence held <;> rfl

/-- Where the work is not called, the composite answers a lock error if it returns, and
where the work is called, it answers none. -/
theorem withLock_answer {answer : Except LockError (Except ε τ)}
    (h : (withLock P c request work s).2 = some answer) :
    (∃ e, answer = .error e) ↔ granted P c request s = none := by
  unfold withLock at h
  rcases hall : acquireAll P request c.providers [] s with ⟨s', _ | e | held⟩
  · rw [hall] at h
    cases h
  · rw [hall] at h
    cases h
    exact iff_of_true ⟨e, rfl⟩ (granted_of_not_ok (by rw [hall]; exact nofun))
  · rw [granted_of_ok (congrArg Prod.snd hall)]
    rw [hall] at h
    dsimp only at h
    split at h
    · next hlacks =>
      rw [if_pos hlacks]
      exact iff_of_true ⟨_, finish_eq_some h⟩ rfl
    · next hlacks =>
      rw [if_neg hlacks]
      refine iff_of_false (fun hex => ?_) nofun
      obtain ⟨e, he⟩ := hex
      split at h
      · cases h
      · rw [finish_eq_some h] at he
        cases he

section Watched

variable [DecidableEq ι] {w : Watch ι}

theorem watch_acquire (i : ι) : (watch P i).acquire request (w, s) =
    ((match ((P i).acquire request s).2 with
      | some (.ok lease) => ⟨w.holding ++ [(i, lease)], w.calls⟩
      | _ => w, ((P i).acquire request s).1), ((P i).acquire request s).2) := by
  rcases hacquire : (P i).acquire request s with ⟨s', _ | e | lease⟩
  all_goals simp only [watch, hacquire]

/-- Releases change nothing of what was seen at the calls. -/
theorem releaseEach_watch (held : Held ι) : ∃ w' : Watch ι, w'.calls = w.calls ∧
    releaseEach (watch P) held (w, s) =
      ((w', (releaseEach P held s).1), (releaseEach P held s).2) := by
  induction held generalizing w s with
  | nil => exact ⟨w, rfl, rfl⟩
  | cons h rest ih =>
    rw [releaseEach, releaseEach]
    dsimp only [watch]
    let w₁ : Watch ι := ⟨w.holding.erase h, w.calls⟩
    rcases (P h.1).release h.2 s with ⟨s', _ | answer⟩
    · exact ⟨w₁, rfl, rfl⟩
    · exact ih (w := w₁)

theorem finish_watch (held : Held ι) (answer : α) : ∃ w' : Watch ι, w'.calls = w.calls ∧
    finish (watch P) held answer (w, s) =
      ((w', (finish P held answer s).1), (finish P held answer s).2) := by
  obtain ⟨w', hcalls, hrelease⟩ := releaseEach_watch (P := P) (w := w) (s := s) held.reverse
  refine ⟨w', hcalls, ?_⟩
  rw [finish, releaseAll, hrelease]
  rfl

/-- Watched providers do what they do unwatched, and what is held is what was
acquired. -/
theorem acquireAll_watch (w : Watch ι) (s : σ) (is : List ι) (held : Held ι)
    (hholding : w.holding = held) :
    ∃ w' : Watch ι, w'.calls = w.calls ∧
    (∀ held', (acquireAll P request is held s).2 = some (.ok held') → w'.holding = held') ∧
      acquireAll (watch P) request is held (w, s) =
        ((w', (acquireAll P request is held s).1), (acquireAll P request is held s).2) := by
  induction is generalizing held w s with
  | nil =>
    refine ⟨w, rfl, fun held' h => ?_, rfl⟩
    cases h
    exact hholding
  | cons i is ih =>
    rw [acquireAll, acquireAll, watch_acquire]
    rcases (P i).acquire request s with ⟨s', _ | e | lease⟩
    · exact ⟨w, rfl, nofun, rfl⟩
    · obtain ⟨w', hcalls, hfinish⟩ := finish_watch (P := P) (w := w) (s := s') held
        (.error e : Except LockError (Held ι))
      refine ⟨w', hcalls, fun held' h => ?_, hfinish⟩
      cases finish_eq_some h
    · let w₁ : Watch ι := ⟨w.holding ++ [(i, lease)], w.calls⟩
      refine ih w₁ _ (held ++ [(i, lease)]) ?_
      show w.holding ++ [(i, lease)] = held ++ [(i, lease)]
      rw [hholding]

/-- The work is called where the composite holds what was granted to it, and is passed
the leases it holds. -/
theorem withLock_watch (P : ι → LockProvider σ) (c : CompositeLockProvider ι)
    (request : LockRequest) (work : Work σ ε τ) (s : σ) : ∃ w' : Watch ι,
    w'.calls = ((granted P c request s).map fun held => (held, held.map Prod.snd)).toList ∧
      withLock (watch P) c request (watchWork work) (.start, s) =
        ((w', (withLock P c request work s).1), (withLock P c request work s).2) := by
  obtain ⟨w, hcalls, hholding, hwatch⟩ : ∃ w : Watch ι, w.calls = [] ∧
      (∀ held, (acquireAll P request c.providers [] s).2 = some (.ok held) → w.holding = held) ∧
        acquireAll (watch P) request c.providers [] (.start, s) =
          ((w, (acquireAll P request c.providers [] s).1),
            (acquireAll P request c.providers [] s).2) :=
    acquireAll_watch .start s c.providers [] rfl
  unfold withLock
  rw [hwatch]
  rcases hall : acquireAll P request c.providers [] s with ⟨s', _ | e | held⟩
  · rw [granted_of_not_ok (by rw [hall]; exact nofun)]
    exact ⟨w, hcalls, rfl⟩
  · rw [granted_of_not_ok (by rw [hall]; exact nofun)]
    exact ⟨w, hcalls, rfl⟩
  · have hok : (acquireAll P request c.providers [] s).2 = some (.ok held) := by rw [hall]
    rw [granted_of_ok hok]
    dsimp only
    split
    · obtain ⟨w', hsame, hfinish⟩ := finish_watch (P := P) (w := w) (s := s') held
        (.error (.fencingRequired request.key) : Except LockError (Except ε τ))
      exact ⟨w', hsame.trans hcalls, hfinish⟩
    · let w₁ : Watch ι := ⟨w.holding, w.calls ++ [(w.holding, held.map Prod.snd)]⟩
      have hw₁ : w₁.calls = [(held, held.map Prod.snd)] := by
        show w.calls ++ [(w.holding, held.map Prod.snd)] = _
        rw [hcalls, hholding held hok]
        rfl
      dsimp only [watchWork]
      rcases work (held.map Prod.snd) s' with ⟨s'', _ | outcome⟩
      · exact ⟨w₁, hw₁, rfl⟩
      · obtain ⟨w', hsame, hfinish⟩ := finish_watch (P := P) (w := w₁) (s := s'') held
          (.ok outcome : Except LockError (Except ε τ))
        exact ⟨w', hsame.trans hw₁, hfinish⟩

end Watched

/-! ## What the policy demands -/

/-- The providers the policy demands, with `none` for one that was not supplied. -/
def demanded (policy : LockPolicy) (outer inner : Option ι) : List (Option ι) :=
  (if policy.fiduciaEnabled then [outer] else []) ++
    if policy.pgAdvisoryEnabled then [inner] else []

/-- Every provider that is enabled is supplied. -/
def Supplied (policy : LockPolicy) (outer inner : Option ι) : Prop :=
  (policy.fiduciaEnabled = true → outer.isSome = true) ∧
    (policy.pgAdvisoryEnabled = true → inner.isSome = true)

theorem map_some_providers (policy : LockPolicy) (outer inner : Option ι) :
    (CompositeLockProvider.new policy outer inner).providers.map some =
        demanded policy outer inner ↔ Supplied policy outer inner := by
  obtain ⟨fiducia, pgAdvisory, fencing⟩ := policy
  unfold CompositeLockProvider.new CompositeLockProvider.providers demanded Supplied
  cases fiducia <;> cases pgAdvisory <;> cases outer <;> cases inner <;> simp

/-- A composite coordinates the work as its policy demands. -/
structure Coordinated [DecidableEq ι] (policy : LockPolicy) (outer inner : Option ι)
    (P : ι → LockProvider σ) (request : LockRequest) (work : Work σ ε τ) (s : σ) : Prop where
  /-- The work is called with one lease of each provider the policy demands, all held,
  and with a fence if the policy demands one. -/
  guarded : ∀ call ∈ (withLock (watch P) (.new policy outer inner) request (watchWork work)
      (.start, s)).1.1.calls,
    call.1.map (fun h => some h.1) = demanded policy outer inner ∧
      call.2 = call.1.map Prod.snd ∧
        (policy.requireFencing = true → ∃ lease ∈ call.2, lease.isFenced = true)
  /-- Where the composite returns, it answers a lock error or has called the work. -/
  refused : ∀ answer, (withLock P (.new policy outer inner) request work s).2 = some answer →
    ((∃ e, answer = .error e) ↔ (withLock (watch P) (.new policy outer inner) request
      (watchWork work) (.start, s)).1.1.calls = [])

variable {policy : LockPolicy} {outer inner : Option ι}

theorem grants_of_granted (h : granted P c request s = some held) :
    held.map Prod.fst = c.providers ∧ c.lacksFence held = false := by
  obtain ⟨hgrants, hlacks⟩ := Option.filter_eq_some_iff.mp h
  exact ⟨map_fst_of_grants hgrants, by simpa using hlacks⟩

theorem lacksFence_iff : c.lacksFence held = true ↔
    c.policy.requireFencing = true ∧ ∀ h ∈ held, h.2.fence = none := by
  rw [CompositeLockProvider.lacksFence, Bool.and_eq_true, Bool.not_eq_true', List.any_eq_false]
  refine and_congr_right' (forall₂_congr fun h _ => ?_)
  rw [LockLease.isFenced, Option.not_isSome_iff_eq_none]

theorem fenced_of_not_lacksFence (hlacks : c.lacksFence held = false)
    (hfencing : c.policy.requireFencing = true) :
    ∃ lease ∈ held.map Prod.snd, lease.isFenced = true := by
  rw [CompositeLockProvider.lacksFence, hfencing, Bool.true_and, Bool.not_eq_false',
    List.any_eq_true] at hlacks
  obtain ⟨h, hmem, hfenced⟩ := hlacks
  exact ⟨h.2, List.mem_map_of_mem hmem, hfenced⟩

/-- Whatever the providers do, the work is coordinated unless they grant all that is
asked of them while a provider is missing. -/
theorem coordinated_iff_granted [DecidableEq ι] :
    Coordinated policy outer inner P request work s ↔
      Supplied policy outer inner ∨ granted P (.new policy outer inner) request s = none := by
  obtain ⟨w, hcalls, hwatch⟩ := withLock_watch P (.new policy outer inner) request work s
  constructor
  · intro h
    rcases hgranted : granted P (.new policy outer inner) request s with _ | held
    · exact .inr rfl
    · left
      obtain ⟨hproviders, _⟩ := grants_of_granted hgranted
      have hcall := h.guarded
      rw [hwatch] at hcall
      dsimp only at hcall
      rw [hcalls, hgranted] at hcall
      rw [← map_some_providers, ← hproviders, List.map_map]
      exact (hcall _ (List.mem_singleton_self _)).1
  · intro h
    refine ⟨fun call hcall => ?_, fun answer hanswer => ?_⟩
    · rw [hwatch] at hcall
      dsimp only at hcall
      rw [hcalls, Option.mem_toList, Option.map_eq_some_iff] at hcall
      obtain ⟨held, hgranted, rfl⟩ := hcall
      obtain ⟨hproviders, hlacks⟩ := grants_of_granted hgranted
      rcases h with hsupplied | hnone
      · refine ⟨?_, rfl, fenced_of_not_lacksFence hlacks⟩
        rw [← (map_some_providers policy outer inner).mpr hsupplied, ← hproviders, List.map_map]
        rfl
      · rw [hnone] at hgranted
        cases hgranted
    · rw [withLock_answer hanswer, hwatch]
      dsimp only
      rw [hcalls, Option.toList_eq_nil_iff, Option.map_eq_none_iff]

/-- Providers that grant every request, with a fence. -/
def granting (_ : ι) : LockProvider Unit where
  acquire request s := (s, some (.ok ⟨request.key, request.owner, some 1, request.ttl⟩))
  release _ s := (s, some (.ok ()))

theorem grants_granting (is : List ι) : grants granting request is () =
    some (is.map fun i => (i, ⟨request.key, request.owner, some 1, request.ttl⟩)) := by
  induction is with
  | nil => rfl
  | cons i is ih =>
    rw [grants]
    dsimp only [granting]
    rw [ih]
    rfl

theorem granted_granting : granted granting c request () = none ↔
    c.policy.requireFencing = true ∧ c.providers = [] := by
  rw [granted, grants_granting, Option.filter_some, CompositeLockProvider.lacksFence]
  rcases c.providers with _ | ⟨i, is⟩
  · cases c.policy.requireFencing <;> simp
  · simp [LockLease.isFenced]

/-- The composite coordinates the work, whatever its providers do, exactly when every
provider that is enabled is supplied, or none of them is while the policy demands a fence.
For given providers it also does so where one refuses or a demanded fence is missing. -/
theorem work_coordinated_iff [DecidableEq ι] (policy : LockPolicy) (outer inner : Option ι) :
    ((∀ (σ ε τ : Type) (P : ι → LockProvider σ) (request : LockRequest) (work : Work σ ε τ) (s : σ),
      Coordinated policy outer inner P request work s) ↔ Supplied policy outer inner ∨
        (policy.requireFencing = true ∧
          (CompositeLockProvider.new policy outer inner).providers = [])) ∧
    ∀ (σ ε τ : Type) (P : ι → LockProvider σ) (request : LockRequest) (work : Work σ ε τ) (s : σ),
      Coordinated policy outer inner P request work s ↔ Supplied policy outer inner ∨
        ∀ held, grants P request (CompositeLockProvider.new policy outer inner).providers s =
          some held → policy.requireFencing = true ∧ ∀ h ∈ held, h.2.fence = none := by
  refine ⟨⟨fun h => ?_, fun h σ ε τ P request work s => ?_⟩, fun σ ε τ P request work s => ?_⟩
  · have hgranting := coordinated_iff_granted.mp (h Unit Unit Unit granting (.tryOnce "" "")
      (fun _ s => (s, some (.ok ()))) ())
    rw [granted_granting] at hgranting
    exact hgranting
  · refine coordinated_iff_granted.mpr (h.imp_right fun hfree => ?_)
    rw [granted, hfree.2, grants, Option.filter_some, if_neg]
    rw [lacksFence_iff.mpr ⟨hfree.1, List.forall_mem_nil _⟩]
    exact Bool.false_ne_true
  · rw [coordinated_iff_granted, granted, Option.filter_eq_none_iff]
    refine or_congr_right (forall₂_congr fun held _ => ?_)
    rw [Bool.not_eq_true', Bool.not_eq_false, lacksFence_iff]
    rfl

/-- A provider that is enabled and missing is passed over. -/
theorem work_runs_unlocked : ¬ ∀ (policy : LockPolicy) (outer inner : Option Unit)
    (P : Unit → LockProvider Unit) (request : LockRequest) (work : Work Unit Unit Unit) (s : Unit),
      Coordinated policy outer inner P request work s := by
  intro h
  have hguarded := (h ⟨true, false, false⟩ none none granting (.tryOnce "nightly" "a")
    (fun _ s => (s, some (.ok ()))) ()).guarded ([], []) List.mem_cons_self
  exact absurd hguarded.1 (by decide)

end LockProvider
end Locks
end IndieWorker
