import IndieWorker.LockKeys
import IndieWorker.Locks.Interleaving

/-!
# Callers under different keys

Callers of one set of providers that lock different keys do not notice each other:
their tables share no entry.  Lock identities that differ have different keys, so two
jobs, sessions or maintenance runs are never refused because of one another.
-/

namespace IndieWorker
namespace Locks

variable {ι κ : Type} [DecidableEq ι] {b : Build}

/-- One step of a caller, a panic of the work it runs, or anything that leaves the
entries for the keys of the callers alone. -/
inductive Beside [DecidableEq κ] (b : Build) (callers : κ → Caller ι) :
    System κ ι → System κ ι → Prop where
  | run {s : System κ ι} (i : κ) {store : Store ι} {ph : Phase ι}
      (h : (callers i).advance b s.store (s.phase i) = some (store, ph)) :
      Beside b callers s ⟨store, Function.update s.phase i ph⟩
  | panic {s : System κ ι} (i : κ) {held : Held ι} (h : s.phase i = .working held) :
      Beside b callers s ⟨s.store, Function.update s.phase i .panicked⟩
  | elsewhere {s : System κ ι} {store : Store ι}
      (h : ∀ i p, (store p).isLocal = (s.store p).isLocal ∧
        (store p).table (callers i).request.key = (s.store p).table (callers i).request.key) :
      Beside b callers s ⟨store, s.phase⟩

/-! ## What a call has of its key -/

/-- The entries for `key` are the leases of `held`, and there is no other. -/
structure Holds (key : String) (s : Store ι) (held : Held ι) : Prop where
  once : (held.map Prod.fst).Nodup
  own : ∀ x ∈ held, x.2.key = key
  entry : ∀ x ∈ held, (s x.1).table key = some x.2.owner
  free : ∀ p ∉ held.map Prod.fst, (s p).table key = none

/-- The call was not stopped by a provider that failed. -/
def Served (answer : Except LockError Unit) : Prop :=
  ∀ key detail, answer ≠ .error (.unavailable key detail)

/-- What a call may answer that nobody else is in the way of. -/
def Unopposed (key : String) (answer : Except LockError Unit) : Prop :=
  answer = .ok () ∨ answer = .error (.fencingRequired key) ∨
    ∃ detail, answer = .error (.unavailable key detail)

/-- A call whose key nobody else touches. -/
def Undisturbed (key : String) (s : Store ι) : Phase ι → Prop
  | .acquiring rest held => Holds key s held ∧ (held.map Prod.fst ++ rest).Nodup ∧
      ∀ p ∈ rest, (s p).isLocal = true
  | .checking held => Holds key s held
  | .working held => Holds key s held
  | .releasing held answer => (∀ x ∈ held, x.2.key = key) ∧ Unopposed key answer ∧
      (Served answer → Holds key s held)
  | .returned answer => Unopposed key answer ∧ (Served answer → ∀ p, (s p).table key = none)
  | .panicked => True

section Holds

variable {key : String} {s s' : Store ι} {held : Held ι}

omit [DecidableEq ι] in
theorem Holds.congr (h : Holds key s held)
    (hsame : ∀ p, (s' p).table key = (s p).table key) : Holds key s' held where
  once := h.once
  own := h.own
  entry := fun x hx => by rw [hsame, h.entry x hx]
  free := fun p hp => by rw [hsame, h.free p hp]

omit [DecidableEq ι] in
theorem Undisturbed.congr {ph : Phase ι} (h : Undisturbed key s ph)
    (hsame : ∀ p, (s' p).isLocal = (s p).isLocal ∧ (s' p).table key = (s p).table key) :
    Undisturbed key s' ph := by
  have htable := fun p => (hsame p).2
  cases ph with
  | acquiring rest held =>
    obtain ⟨hholds, honce, hlocal⟩ := h
    exact ⟨hholds.congr htable, honce, fun p hp => by rw [(hsame p).1, hlocal p hp]⟩
  | checking held => exact Holds.congr h htable
  | working held => exact Holds.congr h htable
  | releasing held answer => exact ⟨h.1, h.2.1, fun hserved => (h.2.2 hserved).congr htable⟩
  | returned answer => exact ⟨h.1, fun hserved p => by rw [htable, h.2 hserved p]⟩
  | panicked => trivial

/-- A lease more. -/
theorem Holds.take {request : LockRequest} {p : ι} {lease : LockLease}
    (h : Holds request.key s held) (hp : p ∉ held.map Prod.fst) (hlocal : (s p).isLocal = true)
    (hgranted : ((s p).acquire b request).2 = some (.ok lease)) :
    Holds request.key (Function.update s p ((s p).acquire b request).1) (held ++ [(p, lease)]) := by
  obtain ⟨-, htable, hkey, howner⟩ := Provider.acquired hlocal hgranted
  have hother : ∀ q, q ≠ p → Function.update s p ((s p).acquire b request).1 q = s q := fun q hq =>
    Function.update_of_ne hq _ _
  refine ⟨?_, ?_, ?_, ?_⟩
  · rw [List.map_append, List.map_singleton]
    refine List.nodup_append.mpr ⟨h.once, List.nodup_singleton p, fun q hq q' hq' heq => ?_⟩
    rw [heq, List.mem_singleton.mp hq'] at hq
    exact hp hq
  · intro x hx
    rcases List.mem_append.mp hx with hx | hx
    · exact h.own x hx
    · rw [List.mem_singleton.mp hx]
      exact hkey
  · intro x hx
    rcases List.mem_append.mp hx with hx | hx
    · have hne : x.1 ≠ p := fun heq => hp (heq ▸ List.mem_map_of_mem hx)
      rw [hother x.1 hne]
      exact h.entry x hx
    · rw [List.mem_singleton.mp hx, Function.update_self, htable, Function.update_self, howner]
  · intro q hq
    rw [List.map_append, List.mem_append, not_or, List.map_singleton, List.mem_singleton] at hq
    rw [hother q hq.2]
    exact h.free q hq.1

/-- The last lease given back. -/
theorem Holds.release {x : ι × LockLease} (h : Holds key s (held ++ [x])) :
    Holds key (s.release x) held := by
  have hx : x ∈ held ++ [x] := List.mem_append_right _ (List.mem_singleton_self x)
  have honce := h.once
  rw [List.map_append, List.map_singleton, List.nodup_append] at honce
  have hlast : x.1 ∉ held.map Prod.fst := fun hmem =>
    honce.2.2 x.1 hmem x.1 (List.mem_singleton_self _) rfl
  have hother : ∀ q, q ≠ x.1 → (s.release x) q = s q := fun q hq => Function.update_of_ne hq _ _
  have htable : ((s.release x) x.1).table key = none := by
    rw [Store.release, Function.update_self, Provider.release_table, h.own x hx,
      if_pos (h.entry x hx), Function.update_self]
  refine ⟨honce.1, fun y hy => h.own y (List.mem_append_left _ hy), fun y hy => ?_, fun q hq => ?_⟩
  · have hne : y.1 ≠ x.1 := fun heq => hlast (heq ▸ List.mem_map_of_mem hy)
    rw [hother y.1 hne]
    exact h.entry y (List.mem_append_left _ hy)
  · by_cases heq : q = x.1
    · rw [heq]
      exact htable
    · rw [hother q heq]
      refine h.free q fun hmem => ?_
      rw [List.map_append, List.map_singleton] at hmem
      rcases List.mem_append.mp hmem with hmem | hmem
      · exact hq hmem
      · exact heq (List.mem_singleton.mp hmem)

end Holds

/-! ## One step -/

/-- The providers are as before, but for the entries of one key. -/
def Elsewhere (key : String) (s s' : Store ι) : Prop :=
  ∀ key' ≠ key, ∀ p, (s' p).isLocal = (s p).isLocal ∧ (s' p).table key' = (s p).table key'

omit [DecidableEq ι] in
theorem Elsewhere.refl (key : String) (s : Store ι) : Elsewhere key s s := fun _ _ _ => ⟨rfl, rfl⟩

theorem elsewhere_update {key : String} {s : Store ι} {p : ι} {p' : Provider}
    (hlocal : p'.isLocal = (s p).isLocal)
    (htable : ∀ key' ≠ key, p'.table key' = (s p).table key') :
    Elsewhere key s (Function.update s p p') := by
  intro key' hkey q
  by_cases hq : q = p
  · rw [hq, Function.update_self]
    exact ⟨hlocal, htable key' hkey⟩
  · rw [Function.update_of_ne hq]
    exact ⟨rfl, rfl⟩

theorem elsewhere_acquire {request : LockRequest} {s : Store ι} {p : ι}
    (hlocal : (s p).isLocal = true) (hfree : (s p).table request.key = none) :
    Elsewhere request.key s (Function.update s p ((s p).acquire b request).1) := by
  refine elsewhere_update Provider.acquire_isLocal fun key' hkey => ?_
  rw [(Provider.acquire_of_free hlocal hfree).1, Function.update_of_ne hkey]

theorem elsewhere_release {key : String} {s : Store ι} {x : ι × LockLease} (hx : x.2.key = key) :
    Elsewhere key s (s.release x) := by
  refine elsewhere_update Provider.release_isLocal fun key' hkey => ?_
  rw [Provider.release_table]
  by_cases hentry : (s x.1).table x.2.key = some x.2.owner
  · rw [if_pos hentry, hx, Function.update_of_ne hkey]
  · rw [if_neg hentry]

variable {c : Caller ι} {s s' : Store ι} {ph ph' : Phase ι}

/-- A call that takes its next provider finds its key free there. -/
theorem undisturbed_acquire {p : ι} {rest : List ι} {held : Held ι}
    (h : Undisturbed c.request.key s (.acquiring (p :: rest) held))
    (hstep : c.advance b s (.acquiring (p :: rest) held) = some (s', ph')) :
    Undisturbed c.request.key s' ph' ∧ Elsewhere c.request.key s s' := by
  obtain ⟨hholds, honce, hlocal⟩ := h
  have hp := hlocal p List.mem_cons_self
  have hnew : p ∉ held.map Prod.fst := fun hmem =>
    (List.nodup_append.mp honce).2.2 p hmem p List.mem_cons_self rfl
  have hfree := hholds.free p hnew
  have hout := elsewhere_acquire (b := b) hp hfree
  rcases hacquire : (s p).acquire b c.request with ⟨p', _ | e | lease⟩
  · simp only [Caller.advance, hacquire, Option.some.injEq, Prod.mk.injEq] at hstep
    obtain ⟨rfl, rfl⟩ := hstep
    rw [hacquire] at hout
    exact ⟨trivial, hout⟩
  · simp only [Caller.advance, hacquire, Option.some.injEq, Prod.mk.injEq] at hstep
    obtain ⟨rfl, rfl⟩ := hstep
    rw [hacquire] at hout
    obtain ⟨detail, rfl⟩ := (Provider.acquire_of_free (b := b) hp hfree).2.1 e (by rw [hacquire])
    refine ⟨⟨hholds.own, .inr (.inr ⟨detail, rfl⟩), fun hserved => ?_⟩, hout⟩
    exact absurd rfl (hserved _ _)
  · have hgranted : ((s p).acquire b c.request).2 = some (.ok lease) := by rw [hacquire]
    have hholds' := hholds.take hnew hp hgranted
    simp only [Caller.advance, hacquire, Option.some.injEq, Prod.mk.injEq] at hstep
    obtain ⟨rfl, rfl⟩ := hstep
    rw [hacquire] at hout hholds'
    refine ⟨⟨hholds', ?_, fun q hq => ?_⟩, hout⟩
    · rw [List.map_append, List.map_singleton, List.append_assoc]
      exact honce
    · have hne : q ≠ p := by
        rintro rfl
        have hrest := (List.nodup_append.mp honce).2.1
        exact (List.nodup_cons.mp hrest).1 hq
      rw [Function.update_of_ne hne]
      exact hlocal q (List.mem_cons_of_mem p hq)

theorem undisturbed_release {held : Held ι} {answer : Except LockError Unit}
    (h : Undisturbed c.request.key s (.releasing held answer))
    (hstep : c.advance b s (.releasing held answer) = some (s', ph')) :
    Undisturbed c.request.key s' ph' ∧ Elsewhere c.request.key s s' := by
  obtain ⟨hown, hanswer, hholds⟩ := h
  rcases List.eq_nil_or_concat held with rfl | ⟨front, x, rfl⟩
  · cases hstep
    exact ⟨⟨hanswer, fun hserved p => (hholds hserved).free p List.not_mem_nil⟩, .refl _ _⟩
  · simp only [Caller.advance, List.concat_eq_append, List.getLast?_concat, List.dropLast_concat,
      Option.some.injEq, Prod.mk.injEq] at hstep hown hholds
    obtain ⟨rfl, rfl⟩ := hstep
    have hx := hown x (List.mem_append_right _ (List.mem_singleton_self x))
    exact ⟨⟨fun y hy => hown y (List.mem_append_left _ hy), hanswer,
      fun hserved => (hholds hserved).release⟩, elsewhere_release hx⟩

/-- A step of a call keeps it undisturbed and leaves the entries for other keys. -/
theorem undisturbed_step (h : Undisturbed c.request.key s ph)
    (hstep : c.advance b s ph = some (s', ph')) :
    Undisturbed c.request.key s' ph' ∧ Elsewhere c.request.key s s' := by
  cases ph with
  | acquiring rest held =>
    cases rest with
    | nil =>
      cases hstep
      exact ⟨h.1, .refl _ _⟩
    | cons p rest => exact undisturbed_acquire h hstep
  | checking held =>
    by_cases hfence : c.lock.lacksFence held = true
    · rw [Caller.advance_unfenced hfence] at hstep
      cases hstep
      exact ⟨⟨h.own, .inr (.inl rfl), fun _ => h⟩, .refl _ _⟩
    · rw [Caller.advance_fenced hfence] at hstep
      cases hstep
      exact ⟨h, .refl _ _⟩
  | working held =>
    cases hstep
    exact ⟨⟨h.own, .inl rfl, fun _ => h⟩, .refl _ _⟩
  | releasing held answer => exact undisturbed_release h hstep
  | returned answer => cases hstep
  | panicked => cases hstep

/-! ## Runs -/

section Runs

variable [DecidableEq κ] {callers : κ → Caller ι} {store : Store ι} {s s' : System κ ι}

omit [DecidableEq ι] [DecidableEq κ] in
theorem undisturbed_init (honce : ∀ i, (callers i).lock.providers.Nodup)
    (hlocal : ∀ i, ∀ p ∈ (callers i).lock.providers, (store p).isLocal = true)
    (hfree : ∀ i p, (store p).table (callers i).request.key = none) (i : κ) :
    Undisturbed (callers i).request.key store (callers i).start := by
  refine ⟨⟨List.nodup_nil, List.forall_mem_nil _, List.forall_mem_nil _, fun p _ => hfree i p⟩, ?_,
    hlocal i⟩
  rw [List.map_nil, List.nil_append]
  exact honce i

/-- Where no two callers lock one key, a step of one of them disturbs none. -/
theorem undisturbed_beside (hkeys : Function.Injective fun i => (callers i).request.key)
    (h : ∀ i, Undisturbed (callers i).request.key s.store (s.phase i))
    (hstep : Beside b callers s s') (i : κ) :
    Undisturbed (callers i).request.key s'.store (s'.phase i) := by
  cases hstep with
  | run j hrun =>
    obtain ⟨hown, hout⟩ := undisturbed_step (h j) hrun
    by_cases hij : i = j
    · rw [hij]
      simp only [Function.update_self]
      exact hown
    · simp only [Function.update_of_ne hij]
      exact (h i).congr (hout _ fun heq => hij (hkeys heq))
  | panic j hworks =>
    by_cases hij : i = j
    · rw [hij]
      simp only [Function.update_self]
      trivial
    · simp only [Function.update_of_ne hij]
      exact h i
  | elsewhere hout => exact (h i).congr (hout i)

/-- Callers with different identities on in-process providers, in any interleaving, with
panics and with any use of the providers under other keys.  No call is refused as
contended: it runs its work unless the policy demands a fence that it lacks or the
fence counter has failed.  One that was served leaves its key free everywhere. -/
theorem identities_apart (b : Build) (callers : κ → Caller ι) (identity : κ → LockKeys.Call)
    (store : Store ι) (hkey : ∀ i, (callers i).request.key = (identity i).text)
    (hplain : ∀ i, (identity i).PlainRevision) (hdistinct : Function.Injective identity)
    (honce : ∀ i, (callers i).lock.providers.Nodup)
    (hlocal : ∀ i, ∀ p ∈ (callers i).lock.providers, (store p).isLocal = true)
    (hfree : ∀ i p, (store p).table (callers i).request.key = none) {s : System κ ι}
    (hrun : Relation.ReflTransGen (Beside b callers) (System.init callers store) s) (i : κ)
    (answer : Except LockError Unit) (hanswer : s.phase i = .returned answer) :
    Unopposed (callers i).request.key answer ∧
      (Served answer → ∀ p, (s.store p).table (callers i).request.key = none) := by
  have hkeys : Function.Injective fun i => (callers i).request.key := by
    intro i j heq
    simp only [hkey] at heq
    exact hdistinct (LockKeys.Call.text_inj (hplain i) (hplain j) heq)
  have hall : ∀ i, Undisturbed (callers i).request.key s.store (s.phase i) := by
    clear hanswer
    induction hrun with
    | refl => exact undisturbed_init honce hlocal hfree
    | tail _ hstep ih => exact undisturbed_beside hkeys ih hstep
  have hreturned := hall i
  rw [hanswer] at hreturned
  exact hreturned

end Runs

/-- Two jobs on one provider; the first runs to its end. -/
theorem identities_apart_jobs :
    let identity : Bool → LockKeys.Call := fun i =>
      .jobExecution (if i then "nightly" else "release") "c0ffee"
    let callers : Bool → Caller Unit := fun i =>
      ⟨.new { pgAdvisoryEnabled := true } none (some ()), .tryOnce (identity i).text "worker"⟩
    ∃ s, Relation.ReflTransGen (Beside .checked callers)
        (System.init callers fun _ => .inMemory ⟨fun _ => none⟩) s ∧
      s.phase true = .returned (.ok ()) ∧
        (s.store ()).table (identity true).text = none := by
  intro identity callers
  have hrun : ∃ s, Relation.ReflTransGen (Beside .checked callers)
      (System.init callers fun _ => .inMemory ⟨fun _ => none⟩) s ∧
        s.phase true = .returned (.ok ()) :=
    ⟨_, .tail (.tail (.tail (.tail (.tail (.tail .refl (.run true rfl)) (.run true rfl))
      (.run true rfl)) (.run true rfl)) (.run true rfl)) (.run true rfl), rfl⟩
  obtain ⟨s, hreach, hanswer⟩ := hrun
  refine ⟨s, hreach, hanswer, ?_⟩
  refine (identities_apart .checked callers identity _ (fun _ => rfl) (fun i => ?_) ?_
    (fun _ => List.nodup_singleton ()) (fun _ _ _ => rfl) (fun _ _ => rfl) hreach true _
    hanswer).2 (fun _ _ h => by cases h) ()
  · show ':' ∉ "c0ffee".toList
    decide
  · intro i j h
    cases i <;> cases j <;> first | rfl | exact absurd h (by decide)

end Locks
end IndieWorker
