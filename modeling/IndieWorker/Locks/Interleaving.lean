import IndieWorker.Locks.Cleanup
import Mathlib.Logic.Relation

/-!
# Callers side by side

`with_lock` one step at a time, so that the steps of any number of callers can
interleave.  A table entry is what a caller holds: nobody else can take it, and
nobody else gives it back, whatever the owners are called.
-/

namespace IndieWorker
namespace Locks

variable {ι κ : Type} [DecidableEq ι]

/-- Where a call of `with_lock` has got to. -/
inductive Phase (ι : Type) where
  | acquiring (rest : List ι) (held : Held ι)
  | checking (held : Held ι)
  | working (held : Held ι)
  | releasing (held : Held ι) (answer : Except LockError Unit)
  | returned (answer : Except LockError Unit)
  | panicked

/-- The leases a call still has to give back. -/
def Phase.held : Phase ι → Held ι
  | acquiring _ held => held
  | checking held => held
  | working held => held
  | releasing held _ => held
  | returned _ => []
  | panicked => []

structure Caller (ι : Type) where
  lock : CompositeLockProvider ι
  request : LockRequest

namespace Caller

def start (c : Caller ι) : Phase ι := .acquiring c.lock.providers []

/-- The next step of a call.  A panic gives nothing back. -/
def advance (b : Build) (c : Caller ι) (s : Store ι) : Phase ι → Option (Store ι × Phase ι)
  | .acquiring [] held => some (s, .checking held)
  | .acquiring (p :: rest) held =>
    match (s p).acquire b c.request with
    | (p', none) => some (Function.update s p p', .panicked)
    | (p', some (.error e)) => some (Function.update s p p', .releasing held (.error e))
    | (p', some (.ok lease)) =>
      some (Function.update s p p', .acquiring rest (held ++ [(p, lease)]))
  | .checking held =>
    if c.lock.lacksFence held then
      some (s, .releasing held (.error (.fencingRequired c.request.key)))
    else some (s, .working held)
  | .working held => some (s, .releasing held (.ok ()))
  | .releasing held answer =>
    match held.getLast? with
    | none => some (s, .returned answer)
    | some h => some (s.release h, .releasing held.dropLast answer)
  | .returned _ => none
  | .panicked => none

theorem advance_unfenced {b : Build} {c : Caller ι} {s : Store ι} {held : Held ι}
    (h : c.lock.lacksFence held = true) :
    c.advance b s (.checking held) =
      some (s, .releasing held (.error (.fencingRequired c.request.key))) :=
  if_pos h

theorem advance_fenced {b : Build} {c : Caller ι} {s : Store ι} {held : Held ι}
    (h : ¬ c.lock.lacksFence held = true) :
    c.advance b s (.checking held) = some (s, .working held) :=
  if_neg h

end Caller

/-- Providers shared by callers. -/
structure System (κ ι : Type) where
  store : Store ι
  phase : κ → Phase ι

def System.init (callers : κ → Caller ι) (store : Store ι) : System κ ι :=
  ⟨store, fun i => (callers i).start⟩

/-- One step of one caller, a panic of the work it runs, or anything that leaves
the entries for `key` alone. -/
inductive Step [DecidableEq κ] (b : Build) (callers : κ → Caller ι) (key : String) :
    System κ ι → System κ ι → Prop where
  | run {s : System κ ι} (i : κ) {store : Store ι} {ph : Phase ι}
      (h : (callers i).advance b s.store (s.phase i) = some (store, ph)) :
      Step b callers key s ⟨store, Function.update s.phase i ph⟩
  | panic {s : System κ ι} (i : κ) {held : Held ι} (h : s.phase i = .working held) :
      Step b callers key s ⟨s.store, Function.update s.phase i .panicked⟩
  | elsewhere {s : System κ ι} {store : Store ι}
      (h : ∀ p, (store p).isLocal = (s.store p).isLocal ∧
        (store p).table key = (s.store p).table key) :
      Step b callers key s ⟨store, s.phase⟩

/-- The caller is executing its work closure. -/
def System.Works (s : System κ ι) (i : κ) : Prop := ∃ held, s.phase i = .working held

/-! ## One call on its own -/

/-- Steps of one caller that nothing interrupts. -/
def Alone (b : Build) (c : Caller ι) : Store ι × Phase ι → Store ι × Phase ι → Prop :=
  Relation.ReflTransGen fun x y => c.advance b x.1 x.2 = some y

theorem Alone.step {b : Build} {c : Caller ι} {x y z : Store ι × Phase ι}
    (h : c.advance b x.1 x.2 = some y) (hrest : Alone b c y z) : Alone b c x z :=
  Relation.ReflTransGen.head h hrest

/-- Giving back from the end, one lease a step. -/
theorem alone_releasing (b : Build) (c : Caller ι) (held : Held ι) (s : Store ι)
    (answer : Except LockError Unit) :
    Alone b c (s, .releasing held answer) (releaseAll held s, .returned answer) := by
  induction held using List.reverseRecOn generalizing s with
  | nil => exact Alone.step rfl .refl
  | append_singleton held h ih =>
    refine Alone.step (y := (s.release h, .releasing held answer)) ?_ ?_
    · simp only [Caller.advance, List.getLast?_concat, List.dropLast_concat]
    · rw [releaseAll, List.foldr_append]
      exact ih (s.release h)

/-- Where a call stands when it has no provider left to take, or gave up. -/
def Phase.acquired : Except LockError (Held ι) → Phase ι
  | .ok held => .checking held
  | .error e => .returned (.error e)

theorem alone_acquiring (b : Build) (c : Caller ι) {rest : List ι} {held : Held ι} {s s' : Store ι}
    {answer : Except LockError (Held ι)}
    (h : acquireAll b c.request rest held s = (s', some answer)) :
    Alone b c (s, .acquiring rest held) (s', .acquired answer) := by
  induction rest generalizing held s with
  | nil =>
    cases h
    exact Alone.step rfl .refl
  | cons p rest ih =>
    rcases hacquire : (s p).acquire b c.request with ⟨p', _ | e | lease⟩
    · rw [acquireAll, hacquire] at h
      cases h
    · rw [acquireAll, hacquire] at h
      cases h
      refine Alone.step (y := (Function.update s p p', .releasing held (.error e))) ?_
        (alone_releasing b c held _ _)
      simp only [Caller.advance, hacquire]
    · rw [acquireAll, hacquire] at h
      refine Alone.step ?_ (ih h)
      simp only [Caller.advance, hacquire]

/-- The steps of a call that nothing interrupts are the call. -/
theorem alone_withLock (b : Build) (c : Caller ι) {s s' : Store ι}
    {answer : Except LockError (Except Empty Unit)}
    (h : c.lock.withLock b c.request (fun _ world => (world, some (.ok ()))) (s, ()) =
      ((s', ()), some answer)) :
    Alone b c (s, c.start) (s', .returned (answer.map fun _ => ())) := by
  unfold CompositeLockProvider.withLock at h
  rcases hacquire : acquireAll b c.request c.lock.providers [] s with ⟨s₁, _ | e | held⟩
  · rw [hacquire] at h
    cases h
  · rw [hacquire] at h
    cases h
    exact alone_acquiring b c hacquire
  · rw [hacquire] at h
    refine (alone_acquiring b c hacquire).trans ?_
    simp only at h ⊢
    split at h
    · next hfence =>
      cases h
      exact Alone.step (Caller.advance_unfenced hfence) (alone_releasing b c held s₁ _)
    · next hfence =>
      cases h
      exact Alone.step (Caller.advance_fenced hfence)
        (Alone.step rfl (alone_releasing b c held s₁ _))

/-! ## What interleaving preserves -/

/-- A call that has not failed holds the providers it has passed. -/
def Phase.Keeps (providers : List ι) : Phase ι → Prop
  | acquiring rest held => held.map Prod.fst ++ rest = providers
  | checking held => held.map Prod.fst = providers
  | working held => held.map Prod.fst = providers
  | _ => True

/-- What a single step of a call can be. -/
theorem Caller.advance_cases {b : Build} {c : Caller ι} {s s' : Store ι} {ph ph' : Phase ι}
    (h : c.advance b s ph = some (s', ph')) :
    (s' = s ∧ ph'.held = ph.held ∧
      ∀ providers, ph.Keeps providers → ph'.Keeps providers) ∨
    (∃ p rest held lease, ph = .acquiring (p :: rest) held ∧
      s' = Function.update s p ((s p).acquire b c.request).1 ∧
        ((s p).acquire b c.request).2 = some (.ok lease) ∧
          ph' = .acquiring rest (held ++ [(p, lease)])) ∨
    (∃ p, s' = Function.update s p ((s p).acquire b c.request).1 ∧
      ph'.held.Sublist ph.held ∧ ∀ providers, ph'.Keeps providers) ∨
    (∃ held x answer, ph = .releasing (held ++ [x]) answer ∧ s' = s.release x ∧
      ph' = .releasing held answer) := by
  cases ph with
  | acquiring rest held =>
    cases rest with
    | nil =>
      cases h
      exact Or.inl ⟨rfl, rfl, fun providers hk => by simpa [Phase.Keeps] using hk⟩
    | cons p rest =>
      rcases hacquire : (s p).acquire b c.request with ⟨p', _ | e | lease⟩
      · simp only [advance, hacquire, Option.some.injEq, Prod.mk.injEq] at h
        obtain ⟨rfl, rfl⟩ := h
        exact Or.inr (Or.inr (Or.inl
          ⟨p, by rw [hacquire], List.nil_sublist _, fun _ => trivial⟩))
      · simp only [advance, hacquire, Option.some.injEq, Prod.mk.injEq] at h
        obtain ⟨rfl, rfl⟩ := h
        exact Or.inr (Or.inr (Or.inl
          ⟨p, by rw [hacquire], List.Sublist.refl _, fun _ => trivial⟩))
      · simp only [advance, hacquire, Option.some.injEq, Prod.mk.injEq] at h
        obtain ⟨rfl, rfl⟩ := h
        exact Or.inr (Or.inl
          ⟨p, rest, held, lease, rfl, by rw [hacquire], by rw [hacquire], rfl⟩)
  | checking held =>
    by_cases hfence : c.lock.lacksFence held = true
    · rw [advance_unfenced hfence] at h
      cases h
      exact Or.inl ⟨rfl, rfl, fun _ _ => trivial⟩
    · rw [advance_fenced hfence] at h
      cases h
      exact Or.inl ⟨rfl, rfl, fun _ => id⟩
  | working held =>
    cases h
    exact Or.inl ⟨rfl, rfl, fun _ _ => trivial⟩
  | releasing held answer =>
    rcases List.eq_nil_or_concat held with rfl | ⟨front, x, rfl⟩
    · cases h
      exact Or.inl ⟨rfl, rfl, fun _ _ => trivial⟩
    · simp only [advance, List.concat_eq_append, List.getLast?_concat, List.dropLast_concat,
        Option.some.injEq, Prod.mk.injEq] at h
      obtain ⟨rfl, rfl⟩ := h
      exact Or.inr (Or.inr (Or.inr ⟨front, x, answer, by simp, rfl, rfl⟩))
  | returned answer => cases h
  | panicked => cases h

/-- An acquisition never takes an entry from anyone. -/
theorem Provider.acquire_keeps {b : Build} {request : LockRequest} {p : Provider}
    (hlocal : p.isLocal = true) (h : (p.table request.key).isSome = true) :
    (p.acquire b request).1.table = p.table := by
  rw [Provider.acquire_of_held hlocal h]

/-- An acquisition that succeeds has found its entry free, and the lease names it. -/
theorem Provider.acquired {b : Build} {request : LockRequest} {p : Provider} {lease : LockLease}
    (hlocal : p.isLocal = true) (h : (p.acquire b request).2 = some (.ok lease)) :
    p.table request.key = none ∧
      (p.acquire b request).1.table =
        Function.update p.table request.key (some request.owner) ∧
      lease.key = request.key ∧ lease.owner = request.owner := by
  have hfree : p.table request.key = none := by
    rcases hentry : p.table request.key with _ | owner
    · rfl
    · have hsome : (p.table request.key).isSome = true := by
        rw [hentry]
        rfl
      rw [Provider.acquire_of_held hlocal hsome] at h
      cases h
  obtain ⟨htable, _, hissued⟩ := Provider.acquire_of_free (b := b) hlocal hfree
  rw [hissued lease h, Provider.issued_key, Provider.issued_owner]
  exact ⟨hfree, htable, rfl, rfl⟩

/-- Each lease a caller holds on an in-memory provider is the entry of its
table, and nobody else's. -/
structure Safe (callers : κ → Caller ι) (key : String) (inProcess : ι → Bool) (s : System κ ι) :
    Prop where
  kinds : ∀ p, (s.store p).isLocal = inProcess p
  entry : ∀ i, ∀ x ∈ (s.phase i).held, inProcess x.1 = true →
    x.2.key = key ∧ (s.store x.1).table key = some x.2.owner
  once : ∀ i p, inProcess p = true → ((s.phase i).held.map Prod.fst).count p ≤ 1
  alone : ∀ i j p, inProcess p = true → p ∈ (s.phase i).held.map Prod.fst →
    p ∈ (s.phase j).held.map Prod.fst → i = j
  keeps : ∀ i, (s.phase i).Keeps (callers i).lock.providers

namespace Safe

variable {callers : κ → Caller ι} {key : String} {inProcess : ι → Bool} {s : System κ ι}

theorem init (store : Store ι) :
    Safe callers key (fun p => (store p).isLocal) (System.init callers store) :=
  ⟨fun _ => rfl, fun _ _ hx => absurd hx List.not_mem_nil, fun _ _ _ => Nat.zero_le 1,
    fun _ _ _ _ hp => absurd hp List.not_mem_nil, fun _ => rfl⟩

/-- What somebody holds is entered. -/
theorem isSome_of_held (hs : Safe callers key inProcess s) {i : κ} {p : ι}
    (hl : inProcess p = true) (hp : p ∈ (s.phase i).held.map Prod.fst) :
    ((s.store p).table key).isSome = true := by
  obtain ⟨x, hx, rfl⟩ := List.mem_map.mp hp
  rw [(hs.entry i x hx hl).2]
  rfl

variable [DecidableEq κ]

/-- A caller moves on, and what the others hold is untouched. -/
theorem update (hs : Safe callers key inProcess s) (i : κ) {store : Store ι} {ph : Phase ι}
    (hlocal : ∀ p, (store p).isLocal = inProcess p)
    (hentry : ∀ x ∈ ph.held, inProcess x.1 = true →
      x.2.key = key ∧ (store x.1).table key = some x.2.owner)
    (honce : ∀ p, inProcess p = true → (ph.held.map Prod.fst).count p ≤ 1)
    (hothers : ∀ j ≠ i, ∀ p, inProcess p = true → p ∈ (s.phase j).held.map Prod.fst →
      (store p).table key = (s.store p).table key ∧ p ∉ ph.held.map Prod.fst)
    (hkeeps : ph.Keeps (callers i).lock.providers) :
    Safe callers key inProcess ⟨store, Function.update s.phase i ph⟩ := by
  have hphase : ∀ j, j ≠ i → (Function.update s.phase i ph) j = s.phase j := fun j hj =>
    Function.update_of_ne hj ph s.phase
  refine ⟨hlocal, fun j x hx hl => ?_, fun j p hl => ?_, fun j k p hl hj hk => ?_, fun j => ?_⟩
  · by_cases hj : j = i
    · subst hj
      simp only [Function.update_self] at hx
      exact hentry x hx hl
    · simp only [hphase j hj] at hx
      rw [(hothers j hj x.1 hl (List.mem_map_of_mem hx)).1]
      exact hs.entry j x hx hl
  · by_cases hj : j = i
    · subst hj
      simp only [Function.update_self]
      exact honce p hl
    · simp only [hphase j hj]
      exact hs.once j p hl
  · by_cases hji : j = i
    · by_cases hki : k = i
      · rw [hji, hki]
      · subst hji
        simp only [Function.update_self, hphase k hki] at hj hk
        exact absurd hj (hothers k hki p hl hk).2
    · by_cases hki : k = i
      · subst hki
        simp only [Function.update_self, hphase j hji] at hj hk
        exact absurd hk (hothers j hji p hl hj).2
      · simp only [hphase j hji, hphase k hki] at hj hk
        exact hs.alone j k p hl hj hk
  · by_cases hj : j = i
    · subst hj
      simp only [Function.update_self]
      exact hkeeps
    · simp only [hphase j hj]
      exact hs.keeps j

/-- A caller that holds no more than before, on providers whose entries are as
before. -/
theorem shrink (hs : Safe callers key inProcess s) (i : κ) {store : Store ι} {ph : Phase ι}
    (hlocal : ∀ p, (store p).isLocal = inProcess p)
    (hstore : ∀ j p, inProcess p = true → p ∈ (s.phase j).held.map Prod.fst →
      (store p).table key = (s.store p).table key)
    (hheld : ph.held.Sublist (s.phase i).held)
    (hkeeps : ph.Keeps (callers i).lock.providers) :
    Safe callers key inProcess ⟨store, Function.update s.phase i ph⟩ := by
  have hmem : ∀ p, p ∈ ph.held.map Prod.fst → p ∈ (s.phase i).held.map Prod.fst := fun p hp =>
    (hheld.map Prod.fst).subset hp
  refine hs.update i hlocal (fun x hx hl => ?_) (fun p hl => ?_) (fun j hj p hl hp => ?_) hkeeps
  · have hxi := hheld.subset hx
    rw [hstore i x.1 hl (List.mem_map_of_mem hxi)]
    exact hs.entry i x hxi hl
  · exact Nat.le_trans ((hheld.map Prod.fst).count_le p) (hs.once i p hl)
  · exact ⟨hstore j p hl hp, fun hpi => hj (hs.alone j i p hl hp (hmem p hpi))⟩

/-- An acquisition that succeeds adds a lease nobody else holds. -/
theorem acquire {b : Build} (hs : Safe callers key inProcess s) (i : κ) {p : ι} {rest : List ι}
    {held : Held ι} {lease : LockLease} (hkey : (callers i).request.key = key)
    (hph : s.phase i = .acquiring (p :: rest) held)
    (hlease : ((s.store p).acquire b (callers i).request).2 = some (.ok lease)) :
    Safe callers key inProcess
      ⟨Function.update s.store p ((s.store p).acquire b (callers i).request).1,
        Function.update s.phase i (.acquiring rest (held ++ [(p, lease)]))⟩ := by
  have hheld : (s.phase i).held = held := by rw [hph]; rfl
  -- The entry was free, so nobody holds `p`.
  have hacquired := fun hl : inProcess p = true =>
    Provider.acquired ((hs.kinds p).trans hl) hlease
  rw [hkey] at hacquired
  have hnobody : ∀ j, inProcess p = true → p ∉ (s.phase j).held.map Prod.fst := by
    intro j hl hp
    have hsome := hs.isSome_of_held hl hp
    rw [(hacquired hl).1] at hsome
    cases hsome
  have hne : ∀ j q, inProcess q = true → q ∈ (s.phase j).held.map Prod.fst → q ≠ p := by
    intro j q hl hq heq
    subst heq
    exact hnobody j hl hq
  refine hs.update i (fun q => ?_) (fun x hx hl => ?_) (fun q hl => ?_) (fun j hj q hl hq => ?_) ?_
  · by_cases hq : q = p
    · subst hq
      rw [Function.update_self, Provider.acquire_isLocal, hs.kinds q]
    · rw [Function.update_of_ne hq, hs.kinds q]
  · rcases List.mem_append.mp hx with hx | hx
    · rw [← hheld] at hx
      rw [Function.update_of_ne (hne i x.1 hl (List.mem_map_of_mem hx))]
      exact hs.entry i x hx hl
    · rw [List.mem_singleton] at hx
      subst hx
      obtain ⟨_, htable, hleaseKey, howner⟩ := hacquired hl
      rw [Function.update_self, htable, howner, Function.update_self]
      exact ⟨hleaseKey, rfl⟩
  · have honce := hs.once i q hl
    rw [hheld] at honce
    show ((held ++ [(p, lease)]).map Prod.fst).count q ≤ 1
    rw [List.map_append, List.count_append]
    by_cases hq : q = p
    · subst hq
      have hzero : (held.map Prod.fst).count q = 0 := by
        rw [← hheld]
        exact List.count_eq_zero.mpr (hnobody i hl)
      rw [hzero]
      exact Nat.le_of_eq (by simp)
    · have hzero : ([(p, lease)].map Prod.fst).count q = 0 :=
        List.count_eq_zero.mpr fun h => hq (List.mem_singleton.mp h)
      rw [hzero]
      exact honce
  · have hqp := hne j q hl hq
    refine ⟨by rw [Function.update_of_ne hqp], fun hmem => ?_⟩
    rw [show (Phase.acquiring rest (held ++ [(p, lease)])).held = held ++ [(p, lease)] from rfl,
      List.map_append, List.mem_append] at hmem
    rcases hmem with hmem | hmem
    · rw [← hheld] at hmem
      exact hj (hs.alone j i q hl hq hmem)
    · exact hqp (List.mem_singleton.mp hmem)
  · have hkeeps := hs.keeps i
    rw [hph] at hkeeps
    simpa [Phase.Keeps] using hkeeps

/-- A release frees the entry of the lease it gives back. -/
theorem release (hs : Safe callers key inProcess s) (i : κ) {held : Held ι} {x : ι × LockLease}
    {answer : Except LockError Unit} (hph : s.phase i = .releasing (held ++ [x]) answer) :
    Safe callers key inProcess
      ⟨s.store.release x, Function.update s.phase i (.releasing held answer)⟩ := by
  have hheld : (s.phase i).held = held ++ [x] := by rw [hph]; rfl
  have hfst : (s.phase i).held.map Prod.fst = held.map Prod.fst ++ [x.1] := by
    rw [hheld, List.map_append]
    rfl
  have hx : x.1 ∈ (s.phase i).held.map Prod.fst := by rw [hfst]; simp
  have hsame : ∀ q, q ≠ x.1 → s.store.release x q = s.store q := fun q hq =>
    Function.update_of_ne hq _ _
  -- The caller holds the provider once, so not among the leases that stay.
  have hgone : ∀ q, inProcess q = true → q ∈ held.map Prod.fst → q ≠ x.1 := by
    intro q hl hq heq
    have honce := hs.once i q hl
    have hpos : 0 < (held.map Prod.fst).count q := List.count_pos_iff.mpr hq
    rw [hfst, List.count_append, heq, List.count_singleton_self] at honce
    rw [heq] at hpos
    omega
  refine hs.update i (fun q => ?_) (fun y hy hl => ?_) (fun q hl => ?_) (fun j hj q hl hq => ?_)
    trivial
  · rw [release_isLocal, hs.kinds q]
  · rw [hsame y.1 (hgone y.1 hl (List.mem_map_of_mem hy))]
    exact hs.entry i y (by rw [hheld]; exact List.mem_append_left _ hy) hl
  · have honce := hs.once i q hl
    rw [hfst, List.count_append] at honce
    exact Nat.le_trans (Nat.le_add_right _ _) honce
  · have hout : ∀ p, p ∈ (s.phase i).held.map Prod.fst → q ≠ p := by
      intro p hp heq
      subst heq
      exact hj (hs.alone j i q hl hq hp)
    refine ⟨by rw [hsame q (hout x.1 hx)], fun hmem => hout q ?_ rfl⟩
    rw [hfst]
    exact List.mem_append_left _ hmem

/-- Every step is safe. -/
theorem step {b : Build} {s' : System κ ι} (hkey : ∀ i, (callers i).request.key = key)
    (hs : Safe callers key inProcess s) (h : Step b callers key s s') :
    Safe callers key inProcess s' := by
  cases h with
  | run i hadvance =>
    rcases Caller.advance_cases hadvance with ⟨rfl, hheld, hkeeps⟩ |
      ⟨p, rest, held, lease, hph, rfl, hlease, rfl⟩ | ⟨p, rfl, hheld, hkeeps⟩ |
      ⟨held, x, answer, hph, rfl, rfl⟩
    · exact hs.shrink i hs.kinds (fun _ _ _ _ => rfl) (hheld ▸ List.Sublist.refl _)
        (hkeeps _ (hs.keeps i))
    · exact hs.acquire i (hkey i) hph hlease
    · refine hs.shrink i (fun q => ?_) (fun j q hl hq => ?_) hheld (hkeeps _)
      · by_cases hqp : q = p
        · subst hqp
          rw [Function.update_self, Provider.acquire_isLocal, hs.kinds q]
        · rw [Function.update_of_ne hqp, hs.kinds q]
      · by_cases hqp : q = p
        · subst hqp
          rw [Function.update_self, Provider.acquire_keeps ((hs.kinds q).trans hl)]
          rw [hkey i]
          exact hs.isSome_of_held hl hq
        · rw [Function.update_of_ne hqp]
    · exact hs.release i hph
  | panic i hph =>
    exact hs.shrink i hs.kinds (fun _ _ _ _ => rfl) (List.nil_sublist _) trivial
  | elsewhere hstore =>
    refine ⟨fun p => by rw [(hstore p).1, hs.kinds p], fun i x hx hl => ?_, hs.once, hs.alone,
      hs.keeps⟩
    rw [(hstore x.1).2]
    exact hs.entry i x hx hl

end Safe

/-- Callers of one key of which every two share an in-memory provider never run
their work at the same time, however their steps interleave, whatever else is
done under other keys and whether or not their owners are the same. -/
theorem mutual_exclusion [DecidableEq κ] (b : Build) (callers : κ → Caller ι) (key : String)
    (store : Store ι) {s : System κ ι} (hkey : ∀ i, (callers i).request.key = key)
    (hshare : ∀ i j, i ≠ j → ∃ p, p ∈ (callers i).lock.providers ∧
      p ∈ (callers j).lock.providers ∧ (store p).isLocal = true)
    (hrun : Relation.ReflTransGen (Step b callers key) (System.init callers store) s) :
    ∀ i j, s.Works i → s.Works j → i = j := by
  have hsafe : Safe callers key (fun p => (store p).isLocal) s := by
    induction hrun with
    | refl => exact Safe.init store
    | tail _ hstep ih => exact ih.step hkey hstep
  intro i j hi hj
  obtain ⟨held, hi⟩ := hi
  obtain ⟨held', hj⟩ := hj
  by_contra hne
  obtain ⟨p, hpi, hpj, hlocal⟩ := hshare i j hne
  have hkeepi := hsafe.keeps i
  have hkeepj := hsafe.keeps j
  rw [hi] at hkeepi
  rw [hj] at hkeepj
  refine hne (hsafe.alone i j p hlocal ?_ ?_)
  · rw [hi]
    exact (show held.map Prod.fst = _ from hkeepi) ▸ hpi
  · rw [hj]
    exact (show held'.map Prod.fst = _ from hkeepj) ▸ hpj

/-- Two callers with the same owner and one table: the second is refused while
the first works. -/
theorem mutual_exclusion_of_two :
    let callers : Bool → Caller Unit := fun _ =>
      ⟨.new ⟨true, false, false⟩ (some ()) none, .tryOnce "run-7" "replica-1"⟩
    let store : Store Unit := fun _ => .inMemory .new
    ∃ s, Relation.ReflTransGen (Step .checked callers "run-7") (System.init callers store) s ∧
      s.phase false = .releasing [] (.error (.contended "run-7")) ∧
        s.Works true ∧ ∀ i, s.Works i → i = true := by
  intro callers store
  have hrun : ∃ s, Relation.ReflTransGen (Step .checked callers "run-7")
      (System.init callers store) s ∧
        s.phase false = .releasing [] (.error (.contended "run-7")) ∧ s.Works true :=
    ⟨_, .head (.run true rfl) (.head (.run true rfl) (.head (.run true rfl)
      (.head (.run false rfl) .refl))), rfl, _, rfl⟩
  obtain ⟨s, hrun, hrefused, hworks⟩ := hrun
  refine ⟨s, hrun, hrefused, hworks, fun i hi => ?_⟩
  exact mutual_exclusion .checked callers "run-7" store (fun _ => rfl)
    (fun _ _ _ => ⟨(), by decide, by decide, rfl⟩) hrun i true hi hworks

end Locks
end IndieWorker
