import IndieWorker.Locks

/-!
# What `with_lock` leaves behind

On every path on which it returns, a call gives back what it took: the entry for
its key is what it was, in every provider.  Only a call that runs the work can
change anything else, and only through the work.
-/

namespace IndieWorker
namespace Locks

variable {ι : Type} [DecidableEq ι] {b : Build} {request : LockRequest}

/-! ## Giving back -/

theorem release_isLocal (s : Store ι) (h : ι × LockLease) (q : ι) :
    (s.release h q).isLocal = (s q).isLocal := by
  unfold Store.release
  by_cases hq : q = h.1
  · subst hq
    rw [Function.update_self, Provider.release_isLocal]
  · rw [Function.update_of_ne hq]

/-- Releasing leases that name what the tables hold frees their keys, and
changes nothing else. -/
theorem releaseAll_table {key : String} {held : Held ι} {s : Store ι}
    (hheld : ∀ h ∈ held, h.2.key = key ∧ (s h.1).table key = some h.2.owner)
    (hnodup : (held.map Prod.fst).Nodup) (q : ι) :
    (releaseAll held s q).table =
      if q ∈ held.map Prod.fst then Function.update (s q).table key none else (s q).table := by
  induction held generalizing q with
  | nil => rfl
  | cons h held ih =>
    rw [List.map_cons, List.nodup_cons] at hnodup
    have hrest := ih (fun h' hh' => hheld h' (List.mem_cons_of_mem _ hh')) hnodup.2
    obtain ⟨hkey, hentry⟩ := hheld h List.mem_cons_self
    show (Store.release (releaseAll held s) h q).table = _
    unfold Store.release
    by_cases hq : q = h.1
    · subst hq
      rw [Function.update_self, Provider.release_table, hrest h.1, if_neg hnodup.1, hkey,
        if_pos hentry, List.map_cons, if_pos List.mem_cons_self]
    · rw [Function.update_of_ne hq, hrest q]
      simp only [List.map_cons, List.mem_cons, hq, false_or]

/-! ## Taking -/

/-- `s` is `s₀` after taking, for the request, what `held` lists. -/
structure Taken (request : LockRequest) (s₀ s : Store ι) (held : Held ι) : Prop where
  nodup : (held.map Prod.fst).Nodup
  free : ∀ h ∈ held, (s₀ h.1).table request.key = none
  issued : ∀ h ∈ held, h.2 = (s h.1).issued request
  table : ∀ q, (s q).table =
    if q ∈ held.map Prod.fst then
      Function.update (s₀ q).table request.key (some request.owner)
    else (s₀ q).table
  isLocal : ∀ q, (s q).isLocal = (s₀ q).isLocal

namespace Taken

variable {s₀ s : Store ι} {held : Held ι}

theorem nil (request : LockRequest) (s : Store ι) : Taken request s s [] :=
  ⟨List.nodup_nil, by simp, by simp, fun _ => rfl, fun _ => rfl⟩

/-- What is held is entered in the tables. -/
theorem entry (ht : Taken request s₀ s held) {p : ι} (hp : p ∈ held.map Prod.fst) :
    (s p).table request.key = some request.owner := by
  rw [ht.table p, if_pos hp, Function.update_self]

theorem lease (ht : Taken request s₀ s held) {h : ι × LockLease} (hh : h ∈ held) :
    h.2.key = request.key ∧ h.2.owner = request.owner := by
  rw [ht.issued h hh]
  exact ⟨Provider.issued_key _, Provider.issued_owner _⟩

/-- Releasing what was taken puts every table back. -/
theorem releaseAll_table (ht : Taken request s₀ s held) (q : ι) :
    (releaseAll held s q).table = (s₀ q).table := by
  have hheld : ∀ h ∈ held, h.2.key = request.key ∧ (s h.1).table request.key = some h.2.owner := by
    intro h hh
    obtain ⟨hkey, howner⟩ := ht.lease hh
    rw [howner]
    exact ⟨hkey, ht.entry (List.mem_map_of_mem hh)⟩
  rw [Locks.releaseAll_table hheld ht.nodup, ht.table q]
  split
  · next hq =>
    obtain ⟨h, hh, hhq⟩ := List.mem_map.mp hq
    have hfree : (s₀ q).table request.key = none := by
      rw [← hhq]
      exact ht.free h hh
    rw [Function.update_idem, Function.update_eq_self_iff, hfree]
  · rfl

/-- Taking one more. -/
theorem concat (ht : Taken request s₀ s held) {p : ι} {p' : Provider} {l : LockLease}
    (hlocal : (s p).isLocal = true) (hfree : (s p).table request.key = none)
    (hacquire : (s p).acquire b request = (p', some (.ok l))) :
    Taken request s₀ (Function.update s p p') (held ++ [(p, l)]) := by
  obtain ⟨htable, _, hissued⟩ := Provider.acquire_of_free (b := b) hlocal hfree
  rw [hacquire] at htable hissued
  have hnew : p ∉ held.map Prod.fst := by
    intro hp
    rw [ht.entry hp] at hfree
    cases hfree
  have hsame : (s p).table = (s₀ p).table := by rw [ht.table p, if_neg hnew]
  have hne : ∀ h ∈ held, h.1 ≠ p := by
    intro h hh heq
    exact hnew (heq ▸ List.mem_map_of_mem hh)
  refine ⟨?_, fun h hh => ?_, fun h hh => ?_, fun q => ?_, fun q => ?_⟩
  · rw [List.map_append, List.nodup_append]
    refine ⟨ht.nodup, List.nodup_singleton _, fun a ha c hc hac => hnew ?_⟩
    have hcp : c = p := List.mem_singleton.mp hc
    rwa [← hcp, ← hac]
  · rcases List.mem_append.mp hh with hh | hh
    · exact ht.free h hh
    · rw [List.mem_singleton.mp hh, ← hsame]
      exact hfree
  · rcases List.mem_append.mp hh with hh | hh
    · rw [Function.update_of_ne (hne h hh)]
      exact ht.issued h hh
    · rw [List.mem_singleton.mp hh, Function.update_self]
      exact hissued l rfl
  · by_cases hq : q = p
    · subst hq
      rw [Function.update_self, if_pos (by simp), htable, hsame]
    · have hmem : q ∈ held.map Prod.fst ↔ q ∈ (held ++ [(p, l)]).map Prod.fst := by
        rw [List.map_append, List.mem_append]
        exact (or_iff_left fun h => hq (List.mem_singleton.mp h)).symm
      rw [Function.update_of_ne hq, ht.table q]
      exact if_congr hmem rfl rfl
  · by_cases hq : q = p
    · subst hq
      have hkept : ((s q).acquire b request).1.isLocal = (s q).isLocal := Provider.acquire_isLocal
      rw [hacquire] at hkept
      rw [Function.update_self, hkept, ht.isLocal q]
    · rw [Function.update_of_ne hq, ht.isLocal q]

end Taken

/-- Taking providers in turn takes them all, or ends with every table as it was
before the first. -/
theorem acquireAll_taken {s₀ : Store ι} {rest : List ι} {held : Held ι} {s : Store ι}
    (hlocal : ∀ p ∈ rest, (s₀ p).isLocal = true) (ht : Taken request s₀ s held) :
    (∀ s' held', acquireAll b request rest held s = (s', some (.ok held')) →
      Taken request s₀ s' held' ∧ held'.map Prod.fst = held.map Prod.fst ++ rest) ∧
    (∀ s' e, acquireAll b request rest held s = (s', some (.error e)) →
      (∀ key detail, e ≠ .unavailable key detail) → ∀ q, (s' q).table = (s₀ q).table) := by
  induction rest generalizing held s with
  | nil =>
    refine ⟨fun s' held' h => ?_, fun s' e h => ?_⟩
    · cases h
      exact ⟨ht, (List.append_nil _).symm⟩
    · cases h
  | cons p rest ih =>
    have hp : (s p).isLocal = true := by
      rw [ht.isLocal p]
      exact hlocal p List.mem_cons_self
    have hrest : ∀ q ∈ rest, (s₀ q).isLocal = true := fun q hq =>
      hlocal q (List.mem_cons_of_mem _ hq)
    rcases hentry : (s p).table request.key with _ | owner
    · rcases hacquire : (s p).acquire b request with ⟨p', _ | e | l⟩
      · simp [acquireAll, hacquire]
      · have herror := (Provider.acquire_of_free (b := b) hp hentry).2.1
        rw [hacquire] at herror
        obtain ⟨detail, he⟩ := herror e rfl
        refine ⟨by simp [acquireAll, hacquire], fun s' e' h hne => ?_⟩
        simp only [acquireAll, hacquire, Prod.mk.injEq, Option.some.injEq,
          Except.error.injEq] at h
        exact absurd (h.2.symm.trans he) (hne _ _)
      · have hih := ih hrest (ht.concat hp hentry hacquire)
        have hcons : acquireAll b request (p :: rest) held s =
            acquireAll b request rest (held ++ [(p, l)]) (Function.update s p p') := by
          rw [acquireAll, hacquire]
        rw [hcons]
        rwa [List.map_append, List.append_assoc] at hih
    · have hheld : ((s p).table request.key).isSome = true := by
        rw [hentry]
        rfl
      have hacquire := Provider.acquire_of_held (b := b) hp hheld
      refine ⟨by simp [acquireAll, hacquire], fun s' e h _ q => ?_⟩
      simp only [acquireAll, hacquire, Function.update_eq_self, Prod.mk.injEq] at h
      rw [← h.1]
      exact ht.releaseAll_table q

/-! ## The call -/

/-- A call that returns either ran no work and changed no table, or ran the work
once, between taking every provider and releasing them all. -/
theorem withLock_cases {ω ε τ : Type} {c : CompositeLockProvider ι} {work : Work ι ω ε τ}
    {s s' : Store ι} {w w' : ω} {result : Except LockError (Except ε τ)}
    (hlocal : ∀ p ∈ c.providers, (s p).isLocal = true)
    (hlisted : ∀ key detail, result ≠ .error (.unavailable key detail))
    (h : c.withLock b request work (s, w) = ((s', w'), some result)) :
    (∃ e, result = .error e ∧ w' = w ∧ ∀ q, (s' q).table = (s q).table) ∨
    (∃ outcome s₁ held s₂, result = .ok outcome ∧ Taken request s s₁ held ∧
      held.map Prod.fst = c.providers ∧
        work (held.map Prod.snd) (s₁, w) = ((s₂, w'), some outcome) ∧
          s' = releaseAll held s₂) := by
  obtain ⟨htaken, herror⟩ := acquireAll_taken (b := b) hlocal (Taken.nil request s)
  unfold CompositeLockProvider.withLock at h
  rcases hacquire : acquireAll b request c.providers [] s with ⟨s₁, _ | e | held⟩
  · rw [hacquire] at h
    cases h
  · rw [hacquire] at h
    simp only [Prod.mk.injEq, Option.some.injEq] at h
    obtain ⟨⟨hs, hw⟩, hr⟩ := h
    subst hs
    refine Or.inl ⟨e, hr.symm, hw.symm, herror _ e hacquire fun key detail he => ?_⟩
    exact hlisted key detail (by rw [← hr, he])
  · obtain ⟨ht, hmap⟩ := htaken _ _ hacquire
    rw [hacquire] at h
    simp only at h
    split at h
    · simp only [Prod.mk.injEq, Option.some.injEq] at h
      obtain ⟨⟨hs, hw⟩, hr⟩ := h
      subst hs
      exact Or.inl ⟨_, hr.symm, hw.symm, ht.releaseAll_table⟩
    · rcases hwork : work (held.map Prod.snd) (s₁, w) with ⟨⟨s₂, w₂⟩, _ | outcome⟩
      · rw [hwork] at h
        cases h
      · rw [hwork] at h
        simp only [Prod.mk.injEq, Option.some.injEq] at h
        obtain ⟨⟨hs, hw⟩, hr⟩ := h
        subst hw
        exact Or.inr ⟨outcome, s₁, held, s₂, hr.symm, ht, hmap, hwork, hs.symm⟩

/-- What the work was given, and the providers at that moment. -/
structure WorkCall (ι : Type) where
  store : Store ι
  leases : List LockLease

/-- The work, with a record of its calls. -/
def recorded {ω ε τ : Type} (work : Work ι ω ε τ) : Work ι (List (WorkCall ι) × ω) ε τ :=
  fun leases world =>
    let (after, outcome) := work leases (world.1, world.2.2)
    ((after.1, (world.2.1 ++ [⟨world.1, leases⟩], after.2)), outcome)

/-- The work leaves the entry for `key` as it found it, in every provider. -/
def LeavesEntry {ω ε τ : Type} (key : String) (work : Work ι ω ε τ) : Prop :=
  ∀ leases s w s' w' outcome, work leases (s, w) = ((s', w'), some outcome) →
    ∀ p, (s' p).table key = (s p).table key

/-- The leases list what the providers granted, in their order. -/
theorem Taken.map_snd {s₀ s : Store ι} {held : Held ι} (ht : Taken request s₀ s held) :
    held.map Prod.snd = (held.map Prod.fst).map fun p => (s p).issued request := by
  rw [List.map_map]
  exact List.map_congr_left ht.issued

/-- A call that returns leaves every provider's entry for its key as it was.  If
it answers a lock error, it never called the work and no table changed.  Else it
called the work once, with the leases of the outer and then the inner provider
while both were held, and every other entry is what the work left. -/
theorem withLock_leaves_nothing {ω ε τ : Type} (policy : LockPolicy) (outer inner : Option ι)
    (work : Work ι ω ε τ) (hwork : LeavesEntry request.key work) {s s' : Store ι} {w w' : ω}
    {calls : List (WorkCall ι)} {result : Except LockError (Except ε τ)}
    (hlocal : ∀ p ∈ (CompositeLockProvider.new policy outer inner).providers,
      (s p).isLocal = true)
    (h : (CompositeLockProvider.new policy outer inner).withLock b request (recorded work)
      (s, ([], w)) = ((s', (calls, w')), some result))
    (hlisted : ∀ key detail, result ≠ .error (.unavailable key detail)) :
    (∀ p, (s' p).table request.key = (s p).table request.key) ∧
      match result with
      | .error _ => calls = [] ∧ w' = w ∧ ∀ p, (s' p).table = (s p).table
      | .ok outcome => ∃ s₁ leases s₂,
          calls = [⟨s₁, leases⟩] ∧
          leases = (CompositeLockProvider.new policy outer inner).providers.map
            (fun p => (s₁ p).issued request) ∧
          (∀ p ∈ (CompositeLockProvider.new policy outer inner).providers,
            (s₁ p).table request.key = some request.owner) ∧
          work leases (s₁, w) = ((s₂, w'), some outcome) ∧
          ∀ p, ∀ key ≠ request.key, (s' p).table key = (s₂ p).table key := by
  rcases withLock_cases hlocal hlisted h with
    ⟨e, rfl, hw, htables⟩ | ⟨outcome, s₁, held, s₂, rfl, ht, hmap, hrun, rfl⟩
  · rw [Prod.mk.injEq] at hw
    exact ⟨fun p => by rw [htables p], hw.1, hw.2, htables⟩
  · rcases hcall : work (held.map Prod.snd) (s₁, w) with ⟨⟨s₂', w₂⟩, outcome'⟩
    simp only [recorded, hcall, Prod.mk.injEq] at hrun
    obtain ⟨⟨rfl, hcalls, rfl⟩, rfl⟩ := hrun
    have hkept := hwork _ _ _ _ _ _ hcall
    have hheld : ∀ x ∈ held, x.2.key = request.key ∧
        (s₂' x.1).table request.key = some x.2.owner := by
      intro x hx
      obtain ⟨hkey, howner⟩ := ht.lease hx
      rw [hkept, howner]
      exact ⟨hkey, ht.entry (List.mem_map_of_mem hx)⟩
    have htable := releaseAll_table hheld ht.nodup
    refine ⟨fun p => ?_, s₁, _, s₂', hcalls.symm, by rw [ht.map_snd, hmap],
      fun p hp => ht.entry (by rwa [hmap]), hcall, fun p key hne => ?_⟩
    · rw [htable p]
      split
      · next hp =>
        obtain ⟨x, hx, rfl⟩ := List.mem_map.mp hp
        rw [Function.update_self, ht.free x hx]
      · next hp => rw [hkept p, ht.table p, if_neg hp]
    · rw [htable p]
      split
      · rw [Function.update_of_ne hne]
      · rfl

/-- A provider that holds nothing. -/
def InMemoryLockProvider.new : InMemoryLockProvider := ⟨fun _ => none⟩

def FencingTestProvider.new : FencingTestProvider := ⟨.new, 0, false⟩

theorem withLock_leaves_nothing_fenced :
    let request := LockRequest.tryOnce "run-7" "replica-1"
    let s : Store Bool := fun p => if p then .fencing .new else .inMemory .new
    let work : Work Bool Nat Unit Nat := fun leases world =>
      ((world.1, leases.length), some (.ok world.2))
    let after := (CompositeLockProvider.new ⟨true, true, true⟩ (some true) (some false)).withLock
      .checked request (recorded work) (s, ([], 0))
    ∀ p, (after.1.1 p).table "run-7" = none := by
  intro request s work after p
  have hwork : LeavesEntry request.key work := by
    intro leases s w s' w' outcome h p
    cases h
    rfl
  have hrun : (CompositeLockProvider.new ⟨true, true, true⟩ (some true) (some false)).withLock
      .checked request (recorded work) (s, ([], 0)) =
        ((after.1.1, (after.1.2.1, after.1.2.2)), some (.ok (.ok 0))) := rfl
  have hentry := (withLock_leaves_nothing ⟨true, true, true⟩ (some true) (some false) work hwork
    (s := s) (by decide) hrun (by simp)).1 p
  refine hentry.trans ?_
  cases p <;> rfl

/-- Work that takes a lock of its own and keeps it leaves its key alone, and the
table is not what it was. -/
theorem withLock_keeps_foreign_entries :
    ¬ ∀ (policy : LockPolicy) (outer inner : Option Unit) (request : LockRequest)
      (work : Work Unit Unit Unit Unit) (s s' : Store Unit) (result : Except Unit Unit),
      LeavesEntry request.key work → (∀ p, (s p).isLocal = true) →
        (CompositeLockProvider.new policy outer inner).withLock .checked request work (s, ()) =
          ((s', ()), some (.ok result)) →
        ∀ p, (s' p).table = (s p).table := by
  intro h
  let work : Work Unit Unit Unit Unit := fun _ world =>
    ((Function.update world.1 ()
      (.inMemory ⟨Function.update (world.1 ()).table "other" (some "me")⟩), ()), some (.ok ()))
  have hwork : LeavesEntry "run-7" work := by
    intro leases s w s' w' outcome hrun p
    cases hrun
    have hne : "run-7" ≠ "other" := by decide
    show (Function.update (s ()).table "other" (some "me")) "run-7" = _
    rw [Function.update_of_ne hne]
  have htable := h ⟨true, false, false⟩ (some ()) none (.tryOnce "run-7" "me") work
    (fun _ => .inMemory .new) _ (.ok ()) hwork (fun _ => rfl) rfl ()
  have hentry := congrFun htable "other"
  exact absurd hentry (by decide)

end Locks
end IndieWorker
