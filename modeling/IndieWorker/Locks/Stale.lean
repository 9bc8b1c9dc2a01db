import IndieWorker.Lib.Run
import IndieWorker.Locks.Cleanup

/-!
# Leases that are no longer held

Runs of a fencing provider in which any lease may be presented at any time.  The
table underneath knows an owner for each key and nothing of fences, so what counts
is whether another call of the same owner holds the key.
-/

namespace IndieWorker
namespace Locks
namespace FencingTestProvider

open Run

inductive Call where
  | acquire (request : LockRequest)
  | renew (lease : LockLease)
  | release (lease : LockLease)
  deriving DecidableEq, Repr

inductive Answer where
  /-- `none` where the call panics. -/
  | acquired (answer : Option (Except LockError LockLease))
  | renewed (answer : Except LockError LockLease)
  | released (answer : Except LockError Unit)

def step (b : Build) (p : FencingTestProvider) : Call → Option (FencingTestProvider × Answer)
  | .acquire request => some ((p.acquire b request).1, .acquired (p.acquire b request).2)
  | .renew lease => some (p, .renewed (p.renew lease))
  | .release lease => some ((p.release lease).1, .released (p.release lease).2)

abbrev Step := Entry FencingTestProvider Call Answer

def history (b : Build) (calls : List Call) : List Step := trace (step b) .new calls

/-! ## What a step did -/

/-- The lease a step has granted. -/
def granted (x : Step) : Option LockLease :=
  match x.output with
  | .acquired (some (.ok lease)) => some lease
  | _ => none

/-- The lease a step has released. -/
def released (x : Step) : Option LockLease :=
  match x.event, x.output with
  | .release lease, .released (.ok ()) => some lease
  | _, _ => none

/-- The request whose key a step has entered into the table. -/
def taken (x : Step) : Option LockRequest :=
  match x.event with
  | .acquire request => if x.before.inner.held request.key = none then some request else none
  | _ => none

/-- The lease a call presents. -/
def presented : Call → Option LockLease
  | .acquire _ => none
  | .renew lease => some lease
  | .release lease => some lease

/-- The lease was returned by an earlier call. -/
def Returned (h : List Step) (lease : LockLease) : Prop :=
  ∃ x ∈ h, granted x = some lease ∨ x.output = .renewed (.ok lease)

/-- The lease is the last one granted for its key, and it was not released since. -/
def Current (h : List Step) (lease : LockLease) : Prop :=
  ∃ before x since, h = before ++ x :: since ∧ granted x = some lease ∧
    ∀ y ∈ since, (∀ l, granted y = some l → l.key ≠ lease.key) ∧ released y ≠ some lease

/-- The lease is refused as expired, and the table stays as it is. -/
def Refused (x : Step) (lease : LockLease) : Prop :=
  (x.output = .renewed (.error (.expired lease.key)) ∨
    x.output = .released (.error (.expired lease.key))) ∧
      x.after.inner.held = x.before.inner.held

/-- A fence is above all that were granted before, and a lease that is not current is
refused. -/
def Conforms (h : List Step) (x : Step) : Prop :=
  (∀ l, granted x = some l → ∃ f, l.fence = some f ∧
    ∀ y ∈ h, ∀ l', granted y = some l' → ∃ f', l'.fence = some f' ∧ f' < f) ∧
  ∀ l, presented x.event = some l → Current h l ∨ Refused x l

/-! ## Who holds a key -/

def hold (key : String) (held : Option Step) (x : Step) : Option Step :=
  if (taken x).any (·.key == key) then some x
  else if (released x).any (·.key == key) then none
  else held

/-- The step that took the key, if nothing has freed it since. -/
def holder (h : List Step) (key : String) : Option Step := h.foldl (hold key) none

/-- The key of the lease is held for its owner, by a call that did not grant it. -/
def Superseded (h : List Step) (lease : LockLease) : Prop :=
  ∃ y request, holder h lease.key = some y ∧ taken y = some request ∧
    request.owner = lease.owner ∧ granted y ≠ some lease

/-- The fence counter does not wrap, and no superseded lease is presented. -/
def Timely (b : Build) (h : List Step) (x : Step) : Prop :=
  (∀ request, taken x = some request → b = .wrapping → x.before.nextFence.toNat + 1 < 2 ^ 64) ∧
  ∀ l, presented x.event = some l → ¬ Superseded h l

variable {b : Build} {h : List Step} {p p' : FencingTestProvider} {x : Step} {key : String}
  {lease : LockLease}

theorem holder_concat : holder (h ++ [x]) key = hold key (holder h key) x := by
  unfold holder
  rw [List.foldl_append]
  rfl

theorem holder_of_idle (htaken : taken x = none) (hreleased : released x = none) :
    holder (h ++ [x]) key = holder h key := by
  rw [holder_concat, hold, htaken, hreleased]
  rfl

theorem granted_eq_none {o : Answer} {e : Call}
    (hnone : ∀ l, o ≠ .acquired (some (.ok l))) : granted ⟨p, e, o, p'⟩ = none := by
  unfold granted
  split
  · next hanswer => exact absurd hanswer (hnone _)
  · rfl

theorem released_of_taken {request : LockRequest} (h : taken x = some request) :
    released x = none := by
  obtain ⟨before, event, output, after⟩ := x
  cases event with
  | acquire request => rfl
  | renew lease => cases h
  | release lease => cases h

theorem holder_of_taken {request : LockRequest} (htaken : taken x = some request) :
    holder (h ++ [x]) key = if request.key = key then some x else holder h key := by
  rw [holder_concat, hold, htaken, released_of_taken htaken]
  simp only [Option.any_some, beq_iff_eq, Option.any_none, Bool.false_eq_true, if_false]

theorem holder_of_released (htaken : taken x = none) (hreleased : released x = some lease) :
    holder (h ++ [x]) key = if lease.key = key then none else holder h key := by
  rw [holder_concat, hold, htaken, hreleased, Option.any_none, if_neg Bool.false_ne_true]
  simp only [Option.any_some, beq_iff_eq]

theorem current_concat : Current (h ++ [x]) lease ↔ granted x = some lease ∨
    (Current h lease ∧ (∀ l, granted x = some l → l.key ≠ lease.key) ∧
      released x ≠ some lease) := by
  constructor
  · intro hcurrent
    obtain ⟨before, y, since, hsplit, hgranted, hsince⟩ := hcurrent
    rcases List.eq_nil_or_concat since with hnil | ⟨front, z, hafter⟩
    · rw [hnil] at hsplit
      obtain ⟨_, hxy⟩ := List.append_inj' hsplit rfl
      cases hxy
      exact .inl hgranted
    · rw [hafter, List.concat_eq_append, ← List.cons_append, ← List.append_assoc] at hsplit
      obtain ⟨hh, hxz⟩ := List.append_inj' hsplit rfl
      cases hxz
      rw [hafter, List.concat_eq_append] at hsince
      exact .inr ⟨⟨before, y, front, hh, hgranted, fun w hw =>
        hsince w (List.mem_append_left _ hw)⟩, hsince x (by simp)⟩
  · intro hcases
    rcases hcases with hgranted | ⟨⟨before, y, since, hsplit, hgranted, hsince⟩, hx⟩
    · exact ⟨h, x, [], rfl, hgranted, List.forall_mem_nil _⟩
    · refine ⟨before, y, since ++ [x], ?_, hgranted, fun w hw => ?_⟩
      · rw [hsplit, List.append_assoc, List.cons_append]
      · rcases List.mem_append.mp hw with hw | hw
        · exact hsince w hw
        · rw [List.mem_singleton.mp hw]
          exact hx

/-! ## What each call does -/

variable {o : Answer}

theorem step_renew (h : step b p (.renew lease) = some (p', o)) :
    p' = p ∧ (p.inner.held lease.key = some lease.owner ∨
      o = .renewed (.error (.expired lease.key))) := by
  cases h
  refine ⟨rfl, ?_⟩
  by_cases howner : p.inner.held lease.key = some lease.owner
  · exact .inl howner
  · refine .inr ?_
    rw [renew, InMemoryLockProvider.renew, if_neg howner]
    rfl

theorem renew_of_held (h : p.inner.held lease.key = some lease.owner) :
    p.renew lease = .ok lease := by
  rw [renew, InMemoryLockProvider.renew, if_pos h]
  rfl

theorem step_release (h : step b p (.release lease) = some (p', o)) :
    (p.inner.held lease.key = some lease.owner ∧ o = .released (.ok ()) ∧
      p' = ⟨⟨Function.update p.inner.held lease.key none⟩, p.nextFence, p.poisoned⟩) ∨
    (p.inner.held lease.key ≠ some lease.owner ∧
      o = .released (.error (.expired lease.key)) ∧ p' = p) := by
  cases h
  by_cases howner : p.inner.held lease.key = some lease.owner
  · refine .inl ⟨howner, ?_⟩
    rw [release, InMemoryLockProvider.release, if_pos howner]
    exact ⟨rfl, rfl⟩
  · refine .inr ⟨howner, ?_⟩
    rw [release, InMemoryLockProvider.release, if_neg howner]
    exact ⟨rfl, rfl⟩

/-- A key that is free is entered, whether or not a lease is granted. -/
theorem step_acquire {request : LockRequest} (h : step b p (.acquire request) = some (p', o)) :
    ((p.inner.held request.key).isSome = true ∧ p' = p ∧
      o = .acquired (some (.error (.contended request.key)))) ∨
    (p.inner.held request.key = none ∧ (∀ l, o ≠ .acquired (some (.ok l))) ∧
      p' = ⟨⟨Function.update p.inner.held request.key (some request.owner)⟩, p.nextFence, true⟩ ∧
        (p.poisoned = true ∨ b = .checked)) ∨
    (p.inner.held request.key = none ∧ o = .acquired (some (.ok
        ⟨request.key, request.owner, some (p.nextFence + 1), request.ttl⟩)) ∧
      p' = ⟨⟨Function.update p.inner.held request.key (some request.owner)⟩,
        p.nextFence + 1, false⟩ ∧
          (p.nextFence.toNat + 1 < 2 ^ 64 ∨ b = .wrapping)) := by
  cases h
  rcases hheld : p.inner.held request.key with _ | owner
  · rw [acquire, InMemoryLockProvider.acquire_of_free hheld]
    dsimp only
    by_cases hpoisoned : p.poisoned = true
    · rw [if_pos hpoisoned]
      exact .inr (.inl ⟨rfl, fun _ hl => (by cases hl), rfl, .inl hpoisoned⟩)
    · rw [if_neg hpoisoned]
      by_cases hroom : p.nextFence.toNat + 1 < 2 ^ 64
      · rw [b.add_of_lt hroom]
        exact .inr (.inr ⟨rfl, rfl, rfl, .inl hroom⟩)
      · rw [Build.add.eq_def, UInt64.toNat_one, if_neg hroom]
        cases b with
        | checked => exact .inr (.inl ⟨rfl, fun _ hl => (by cases hl), rfl, .inr rfl⟩)
        | wrapping => exact .inr (.inr ⟨rfl, rfl, rfl, .inr rfl⟩)
  · have hsome : (p.inner.held request.key).isSome = true := by
      rw [hheld]
      rfl
    rw [acquire, InMemoryLockProvider.acquire_of_held hsome]
    exact .inl ⟨rfl, rfl, rfl⟩

/-! ## What holds along every run -/

/-- The table names the owners of the calls that hold the keys. -/
structure Sound (b : Build) (h : List Step) (p : FencingTestProvider) : Prop where
  table : ∀ key, p.inner.held key = ((holder h key).bind taken).map LockRequest.owner
  keyed : ∀ key y, holder h key = some y → ∃ request, taken y = some request ∧ request.key = key
  fresh : b = .wrapping → p.poisoned = false
  latest : p.nextFence = 0 ∨ ∃ y ∈ h, ∃ l, granted y = some l ∧ l.fence = some p.nextFence

/-- As long as no step was out of line, the current leases are those that hold a key. -/
structure Clean (h : List Step) (p : FencingTestProvider) : Prop where
  current : ∀ l, Current h l ↔ ∃ y, holder h l.key = some y ∧ granted y = some l
  bounded : ∀ y ∈ h, ∀ l, granted y = some l →
    ∃ f, l.fence = some f ∧ f.toNat ≤ p.nextFence.toNat

theorem holder_nil (key : String) : holder [] key = none := rfl

theorem sound_new : Sound b [] .new :=
  ⟨fun _ => rfl, fun key _ hheld => (nomatch (holder_nil key).symm.trans hheld), fun _ => rfl,
    .inl rfl⟩

theorem clean_new : Clean [] .new := by
  refine ⟨fun l => iff_of_false ?_ ?_, List.forall_mem_nil _⟩
  · intro hcurrent
    obtain ⟨before, x, since, hsplit, _⟩ := hcurrent
    exact absurd hsplit.symm
      (List.append_ne_nil_of_right_ne_nil before (List.cons_ne_nil x since))
  · intro hex
    obtain ⟨_, hholder, _⟩ := hex
    cases hholder

namespace Sound

/-- A key that the table does not list is held by nobody. -/
theorem holder_of_free (hs : Sound b h p) (hfree : p.inner.held key = none) :
    holder h key = none := by
  rcases hholder : holder h key with _ | y
  · rfl
  · obtain ⟨request, htaken, _⟩ := hs.keyed key y hholder
    have htable := hs.table key
    rw [hfree, hholder, Option.bind_some, htaken] at htable
    cases htable

/-- The table names the owner of a lease when a call of this owner holds its key. -/
theorem owner_iff (hs : Sound b h p) {owner : String} : p.inner.held key = some owner ↔
    ∃ y request, holder h key = some y ∧ taken y = some request ∧ request.owner = owner := by
  rw [hs.table key, Option.map_eq_some_iff]
  constructor
  · intro hex
    obtain ⟨request, hbind, howner⟩ := hex
    obtain ⟨y, hholder, htaken⟩ := Option.bind_eq_some_iff.mp hbind
    exact ⟨y, request, hholder, htaken, howner⟩
  · intro hex
    obtain ⟨y, request, hholder, htaken, howner⟩ := hex
    exact ⟨request, by rw [hholder, Option.bind_some, htaken], howner⟩

/-- A step that neither takes a key nor frees one. -/
theorem idle (hs : Sound b h p) (htaken : taken x = none) (hreleased : released x = none) :
    Sound b (h ++ [x]) p := by
  refine ⟨fun key => ?_, fun key y => ?_, hs.fresh, hs.latest.imp_right fun hex => ?_⟩
  · rw [holder_of_idle htaken hreleased]
    exact hs.table key
  · rw [holder_of_idle htaken hreleased]
    exact hs.keyed key y
  · exact hex.imp fun y hy => ⟨List.mem_append_left _ hy.1, hy.2⟩

/-- A step that takes a free key. -/
theorem take (hs : Sound b h p) {request : LockRequest} (htaken : taken x = some request)
    (hheld : p'.inner.held = Function.update p.inner.held request.key (some request.owner))
    (hfresh : b = .wrapping → p'.poisoned = false)
    (hlatest : p'.nextFence = p.nextFence ∨ ∃ l, granted x = some l ∧ l.fence = some p'.nextFence) :
    Sound b (h ++ [x]) p' := by
  refine ⟨fun key => ?_, fun key y hy => ?_, hfresh, ?_⟩
  · rw [hheld, holder_of_taken htaken]
    by_cases hkey : request.key = key
    · subst hkey
      rw [if_pos rfl, Function.update_self, Option.bind_some, htaken]
      rfl
    · rw [if_neg hkey, Function.update_of_ne (Ne.symm hkey)]
      exact hs.table key
  · rw [holder_of_taken htaken] at hy
    split at hy
    · next hkey =>
      cases hy
      exact ⟨request, htaken, hkey⟩
    · exact hs.keyed key y hy
  · rcases hlatest with hsame | ⟨l, hgranted, hfence⟩
    · rw [hsame]
      exact hs.latest.imp_right fun hex => hex.imp fun y hy =>
        ⟨List.mem_append_left _ hy.1, hy.2⟩
    · exact .inr ⟨x, by simp, l, hgranted, hfence⟩

/-- A step that frees a key. -/
theorem free (hs : Sound b h p) (htaken : taken x = none) (hreleased : released x = some lease) :
    Sound b (h ++ [x])
      ⟨⟨Function.update p.inner.held lease.key none⟩, p.nextFence, p.poisoned⟩ := by
  refine ⟨fun key => ?_, fun key y hy => ?_, hs.fresh, hs.latest.imp_right fun hex => ?_⟩
  · rw [holder_of_released htaken hreleased]
    by_cases hkey : lease.key = key
    · subst hkey
      rw [if_pos rfl]
      exact Function.update_self ..
    · rw [if_neg hkey]
      exact (Function.update_of_ne (Ne.symm hkey) _ _).trans (hs.table key)
  · rw [holder_of_released htaken hreleased] at hy
    split at hy
    · cases hy
    · exact hs.keyed key y hy
  · exact hex.imp fun y hy => ⟨List.mem_append_left _ hy.1, hy.2⟩

theorem step (hs : Sound b h p) {e : Call}
    (hstep : FencingTestProvider.step b p e = some (p', o)) :
    Sound b (h ++ [⟨p, e, o, p'⟩]) p' := by
  cases e with
  | renew lease =>
    obtain ⟨rfl, _⟩ := step_renew hstep
    exact hs.idle rfl rfl
  | release lease =>
    rcases step_release hstep with ⟨_, rfl, rfl⟩ | ⟨_, rfl, rfl⟩
    · exact hs.free rfl rfl
    · exact hs.idle rfl rfl
  | acquire request =>
    rcases step_acquire hstep with ⟨hheld, rfl, rfl⟩ | ⟨hfree, _, rfl, hpoisoned⟩ |
      ⟨hfree, rfl, rfl, _⟩
    · refine hs.idle (if_neg fun hnone => ?_) rfl
      rw [hnone] at hheld
      cases hheld
    · refine hs.take (if_pos hfree) rfl (fun hb => ?_) (.inl rfl)
      rcases hpoisoned with hpoisoned | hchecked
      · rw [hs.fresh hb] at hpoisoned
        cases hpoisoned
      · rw [hchecked] at hb
        cases hb
    · exact hs.take (if_pos hfree) rfl (fun _ => rfl) (.inr ⟨_, rfl, rfl⟩)

end Sound

namespace Clean

theorem idle (hc : Clean h p) (hgranted : granted x = none) (htaken : taken x = none)
    (hreleased : released x = none) : Clean (h ++ [x]) p := by
  refine ⟨fun l => ?_, fun y hy l hl => ?_⟩
  · rw [current_concat, hgranted, hreleased, holder_of_idle htaken hreleased, ← hc.current l]
    simp
  · rcases List.mem_append.mp hy with hy | hy
    · exact hc.bounded y hy l hl
    · rw [List.mem_singleton.mp hy, hgranted] at hl
      cases hl

/-- A key that is taken without a lease leaves no lease current. -/
theorem take (hs : Sound b h p) (hc : Clean h p) {request : LockRequest}
    (htaken : taken x = some request) (hgranted : granted x = none)
    (hfree : p.inner.held request.key = none) (hnext : p'.nextFence = p.nextFence) :
    Clean (h ++ [x]) p' := by
  refine ⟨fun l => ?_, fun y hy l hl => ?_⟩
  · rw [current_concat, hgranted, released_of_taken htaken, holder_of_taken htaken, hc.current l]
    by_cases hkey : request.key = l.key
    · rw [if_pos hkey, hs.holder_of_free (hkey ▸ hfree)]
      simp [hgranted]
    · rw [if_neg hkey]
      simp
  · rw [hnext]
    rcases List.mem_append.mp hy with hy | hy
    · exact hc.bounded y hy l hl
    · rw [List.mem_singleton.mp hy, hgranted] at hl
      cases hl

/-- A lease that is granted is current, with the highest fence so far. -/
theorem grant (hc : Clean h p) {request : LockRequest} (htaken : taken x = some request)
    (hgranted : granted x = some lease) (hkey : lease.key = request.key)
    (hfence : lease.fence = some p'.nextFence)
    (hle : p.nextFence.toNat ≤ p'.nextFence.toNat) : Clean (h ++ [x]) p' := by
  refine ⟨fun l => ?_, fun y hy l hl => ?_⟩
  · rw [current_concat, hgranted, released_of_taken htaken, holder_of_taken htaken, hc.current l]
    simp only [Option.some.injEq, forall_eq', ne_eq, reduceCtorEq, not_false_eq_true, and_true]
    by_cases hsame : request.key = l.key
    · rw [if_pos hsame]
      have hne : ¬ lease.key ≠ l.key := not_not.mpr (hkey.trans hsame)
      simp only [Option.some.injEq, exists_eq_left', hgranted]
      exact ⟨fun hor => hor.elim id fun hand => absurd hand.2 hne, .inl⟩
    · rw [if_neg hsame]
      have hne : lease.key ≠ l.key := fun heq => hsame (hkey.symm.trans heq)
      have hdiffer : lease ≠ l := fun heq => hne (congrArg LockLease.key heq)
      exact ⟨fun hor => hor.elim (fun heq => absurd heq hdiffer) And.left, fun hex =>
        .inr ⟨hex, hne⟩⟩
  · rcases List.mem_append.mp hy with hy | hy
    · obtain ⟨f, hf, hbound⟩ := hc.bounded y hy l hl
      exact ⟨f, hf, Nat.le_trans hbound hle⟩
    · rw [List.mem_singleton.mp hy, hgranted] at hl
      cases hl
      exact ⟨_, hfence, Nat.le_refl _⟩

/-- A current lease that is released leaves none for its key. -/
theorem free (hc : Clean h p) (htaken : taken x = none) (hgranted : granted x = none)
    (hreleased : released x = some lease) (hcurrent : Current h lease)
    (hnext : p'.nextFence = p.nextFence) : Clean (h ++ [x]) p' := by
  refine ⟨fun l => ?_, fun y hy l hl => ?_⟩
  · rw [current_concat, hgranted, hreleased, holder_of_released htaken hreleased]
    simp only [reduceCtorEq, false_or, IsEmpty.forall_iff, implies_true, true_and, ne_eq,
      Option.some.injEq]
    by_cases hkey : lease.key = l.key
    · rw [if_pos hkey]
      refine iff_of_false (fun hand => hand.2 ?_) (fun hex => by simp at hex)
      obtain ⟨y, hholder, hlease⟩ := (hc.current lease).mp hcurrent
      obtain ⟨z, hholder', hl⟩ := (hc.current l).mp hand.1
      rw [← hkey, hholder] at hholder'
      cases hholder'
      exact Option.some.inj (hlease.symm.trans hl)
    · rw [if_neg hkey, hc.current l]
      exact and_iff_left fun heq => hkey (congrArg LockLease.key heq)
  · rw [hnext]
    rcases List.mem_append.mp hy with hy | hy
    · exact hc.bounded y hy l hl
    · rw [List.mem_singleton.mp hy, hgranted] at hl
      cases hl

end Clean

/-! ## Steps that are out of line -/

/-- A lease that the table would let pass is current, unless it is superseded. -/
theorem current_iff_of_owner (hs : Sound b h p) (hc : Clean h p)
    (howner : p.inner.held lease.key = some lease.owner) :
    Current h lease ↔ ¬ Superseded h lease := by
  obtain ⟨y, request, hholder, htaken, hrequest⟩ := hs.owner_iff.mp howner
  rw [hc.current lease]
  constructor
  · intro hex hsuperseded
    obtain ⟨y', hholder', hgranted⟩ := hex
    obtain ⟨y'', _, hholder'', _, _, hother⟩ := hsuperseded
    rw [hholder'] at hholder''
    cases hholder''
    exact hother hgranted
  · intro hnot
    refine ⟨y, hholder, Decidable.not_not.mp fun hother => hnot ?_⟩
    exact ⟨y, request, hholder, htaken, hrequest, hother⟩

theorem not_superseded_of_not_owner (hs : Sound b h p)
    (howner : p.inner.held lease.key ≠ some lease.owner) : ¬ Superseded h lease := by
  intro hsuperseded
  obtain ⟨y, request, hholder, htaken, hrequest, _⟩ := hsuperseded
  exact howner (hs.owner_iff.mpr ⟨y, request, hholder, htaken, hrequest⟩)

/-- What is asked of a step that presents a lease. -/
theorem conforms_of_presented (lease : LockLease)
    (hpresented : presented x.event = some lease) (hgranted : granted x = none) :
    Conforms h x ↔ Current h lease ∨ Refused x lease := by
  unfold Conforms
  rw [hgranted, hpresented]
  simp

theorem timely_of_presented (lease : LockLease)
    (hpresented : presented x.event = some lease) (htaken : taken x = none) :
    Timely b h x ↔ ¬ Superseded h lease := by
  unfold Timely
  rw [htaken, hpresented]
  simp

/-- What is asked of a step that presents none. -/
theorem conforms_of_granted (hpresented : presented x.event = none)
    (hgranted : granted x = some lease) : Conforms h x ↔ ∃ f, lease.fence = some f ∧
      ∀ y ∈ h, ∀ l', granted y = some l' → ∃ f', l'.fence = some f' ∧ f' < f := by
  unfold Conforms
  rw [hgranted, hpresented]
  simp

theorem conforms_of_idle (hpresented : presented x.event = none) (hgranted : granted x = none) :
    Conforms h x := by
  unfold Conforms
  rw [hgranted, hpresented]
  exact ⟨nofun, nofun⟩

theorem timely_of_free {request : LockRequest} (hfree : p.inner.held request.key = none) :
    Timely b h ⟨p, .acquire request, o, p'⟩ ↔
      (b = .wrapping → p.nextFence.toNat + 1 < 2 ^ 64) := by
  unfold Timely
  rw [show taken ⟨p, .acquire request, o, p'⟩ = some request from if_pos hfree]
  simp [presented]

/-- A new fence is above all others unless the counter has wrapped. -/
theorem conforms_iff_of_granted (hs : Sound b h p) (hc : Clean h p)
    (hpresented : presented x.event = none) (hgranted : granted x = some lease)
    (hfence : lease.fence = some (p.nextFence + 1))
    (hroom : p.nextFence.toNat + 1 < 2 ^ 64 ∨ b = .wrapping) :
    Conforms h x ↔ (b = .wrapping → p.nextFence.toNat + 1 < 2 ^ 64) := by
  rw [conforms_of_granted hpresented hgranted]
  by_cases hlt : p.nextFence.toNat + 1 < 2 ^ 64
  · refine iff_of_true ⟨_, hfence, fun y hy l' hl' => ?_⟩ fun _ => hlt
    obtain ⟨f', hf', hle⟩ := hc.bounded y hy l' hl'
    refine ⟨f', hf', ?_⟩
    rw [UInt64.lt_iff_toNat_lt, toNat_add_one hlt]
    omega
  · refine iff_of_false (fun hfences => ?_) fun hall => hlt (hall (hroom.resolve_left hlt))
    -- The counter is at its top, so a lease with that fence is out already.
    obtain ⟨f, hf, habove⟩ := hfences
    rw [hfence] at hf
    cases hf
    rcases hs.latest with hzero | ⟨y, hy, l', hl', hfence'⟩
    · rw [hzero] at hlt
      exact hlt (by decide)
    · obtain ⟨f', hf', hless⟩ := habove y hy l' hl'
      rw [hfence'] at hf'
      cases hf'
      rw [UInt64.lt_iff_toNat_lt, UInt64.toNat_add, UInt64.toNat_one] at hless
      have hbound := p.nextFence.toNat_lt
      omega

theorem conforms_iff_timely (hs : Sound b h p) (hc : Clean h p) {e : Call}
    (hstep : step b p e = some (p', o)) :
    Conforms h ⟨p, e, o, p'⟩ ↔ Timely b h ⟨p, e, o, p'⟩ := by
  cases e with
  | renew lease =>
    cases hstep
    rw [conforms_of_presented lease rfl rfl, timely_of_presented lease rfl rfl]
    by_cases howner : p.inner.held lease.key = some lease.owner
    · rw [← current_iff_of_owner hs hc howner]
      refine or_iff_left fun hrefused => ?_
      rcases hrefused.1 with hanswer | hanswer
      · rw [renew_of_held howner] at hanswer
        cases hanswer
      · cases hanswer
    · refine iff_of_true (.inr ⟨.inl ?_, rfl⟩) (not_superseded_of_not_owner hs howner)
      exact (step_renew (b := b) rfl).2.resolve_left howner
  | release lease =>
    rcases step_release hstep with ⟨howner, rfl, rfl⟩ | ⟨howner, rfl, rfl⟩
    · rw [conforms_of_presented lease rfl rfl,
        timely_of_presented lease rfl rfl, ← current_iff_of_owner hs hc howner]
      refine or_iff_left fun hrefused => ?_
      rcases hrefused.1 with hanswer | hanswer
      · cases hanswer
      · cases hanswer
    · rw [conforms_of_presented lease rfl rfl, timely_of_presented lease rfl rfl]
      exact iff_of_true (.inr ⟨.inr rfl, rfl⟩) (not_superseded_of_not_owner hs howner)
  | acquire request =>
    rcases step_acquire hstep with ⟨hheld, rfl, rfl⟩ | ⟨hfree, hnone, rfl, hpoisoned⟩ |
      ⟨hfree, rfl, rfl, hroom⟩
    · refine iff_of_true (conforms_of_idle rfl rfl) ⟨fun r hr => ?_, nofun⟩
      unfold taken at hr
      dsimp only at hr
      split at hr
      · next hnone =>
        rw [hnone] at hheld
        cases hheld
      · cases hr
    · rw [timely_of_free hfree]
      refine iff_of_true (conforms_of_idle rfl (granted_eq_none hnone)) fun hb => ?_
      rcases hpoisoned with hpoisoned | hchecked
      · rw [hs.fresh hb] at hpoisoned
        cases hpoisoned
      · rw [hchecked] at hb
        cases hb
    · rw [timely_of_free hfree]
      exact conforms_iff_of_granted hs hc rfl rfl rfl hroom

theorem Clean.step (hs : Sound b h p) (hc : Clean h p) {e : Call}
    (hstep : FencingTestProvider.step b p e = some (p', o)) (hok : Timely b h ⟨p, e, o, p'⟩) :
    Clean (h ++ [⟨p, e, o, p'⟩]) p' := by
  cases e with
  | renew lease =>
    cases hstep
    exact hc.idle rfl rfl rfl
  | release lease =>
    rcases step_release hstep with ⟨howner, rfl, rfl⟩ | ⟨_, rfl, rfl⟩
    · rw [timely_of_presented lease rfl rfl, ← current_iff_of_owner hs hc howner] at hok
      exact hc.free rfl rfl rfl hok rfl
    · exact hc.idle rfl rfl rfl
  | acquire request =>
    rcases step_acquire hstep with ⟨hheld, rfl, rfl⟩ | ⟨hfree, hnone, rfl, _⟩ |
      ⟨hfree, rfl, rfl, hroom⟩
    · refine hc.idle rfl (if_neg fun hnone => ?_) rfl
      rw [hnone] at hheld
      cases hheld
    · exact hc.take hs (if_pos hfree) (granted_eq_none hnone) hfree rfl
    · rw [timely_of_free hfree] at hok
      have hlt := hroom.elim id hok
      refine hc.grant (if_pos hfree) rfl rfl rfl ?_
      show p.nextFence.toNat ≤ (p.nextFence + 1).toNat
      rw [toNat_add_one hlt]
      omega

/-- In every run, whatever leases are presented when: every step grants fences in
order and refuses the leases that are not current, exactly when no superseded lease
is presented and the fence counter does not wrap. -/
theorem stale_lease_dead_iff (b : Build) (calls : List Call) :
    Each Conforms (history b calls) ↔ Each (Timely b) (history b calls) := by
  have hrun : Sound b (history b calls) (final (step b) .new calls) ∧
      (Each Conforms (history b calls) ↔ Each (Timely b) (history b calls)) ∧
        (Each Conforms (history b calls) →
          Clean (history b calls) (final (step b) .new calls)) := by
    refine history_invariant_start (fun (h : List Step) (p : FencingTestProvider) =>
      Sound b h p ∧ (Each Conforms h ↔ Each (Timely b) h) ∧ (Each Conforms h → Clean h p))
      ⟨sound_new, iff_of_true (each_nil _) (each_nil _), fun _ => clean_new⟩ ?_ calls
    intro h p e p' o ih hstep
    obtain ⟨hs, hiff, hclean⟩ := ih
    have hlast : Each Conforms h →
        (Conforms h ⟨p, e, o, p'⟩ ↔ Timely b h ⟨p, e, o, p'⟩) := fun hall =>
      conforms_iff_timely hs (hclean hall) hstep
    refine ⟨hs.step hstep, ?_, fun hall => ?_⟩
    · rw [each_concat, each_concat, ← hiff]
      exact and_congr_right hlast
    · obtain ⟨hall, hx⟩ := each_concat.mp hall
      exact (hclean hall).step hs hstep ((hlast hall).mp hx)
  exact hrun.2.1

def nightly : LockRequest := .tryOnce "nightly" "a"

def nightlyLease (fence : UInt64) : LockLease := ⟨"nightly", "a", some fence, nightly.ttl⟩

/-- An owner that holds a key again loses it to its old lease. -/
def heldAgain : List Call := [.acquire nightly, .release (nightlyLease 1), .acquire nightly,
  .release (nightlyLease 1)]

theorem old_lease_releases_new : ¬ ∀ (b : Build) (calls : List Call),
    Each (fun h x => ∀ l, presented x.event = some l → Returned h l) (history b calls) →
      Each Conforms (history b calls) := by
  intro hall
  obtain ⟨w, x, y, z, hrun, hw, hgranted, hx, hy, hnew, hz, hout⟩ : ∃ w x y z,
      history .checked heldAgain = [] ++ [w] ++ [x] ++ [y] ++ [z] ∧
        presented w.event = none ∧ granted w = some (nightlyLease 1) ∧
        presented x.event = some (nightlyLease 1) ∧
        presented y.event = none ∧ granted y = some (nightlyLease 2) ∧
        presented z.event = some (nightlyLease 1) ∧ z.output = .released (.ok ()) :=
    ⟨_, _, _, _, rfl, rfl, rfl, rfl, rfl, rfl, rfl, rfl⟩
  have hreturned := hall .checked heldAgain
  rw [hrun] at hreturned
  simp only [each_concat, each_nil, hw, hx, hy, hz, true_and, and_true, reduceCtorEq,
    false_imp_iff, implies_true, Option.some.injEq, forall_eq'] at hreturned
  obtain ⟨_, hlast⟩ := hreturned ⟨⟨w, by simp, .inl hgranted⟩, w, by simp, .inl hgranted⟩
  rcases hlast.2 _ hz with hcurrent | hrefused
  · rcases current_concat.mp hcurrent with hsame | hkept
    · rw [hnew] at hsame
      exact absurd hsame (by decide)
    · exact hkept.2.1 _ hnew rfl
  · rw [Refused, hout] at hrefused
    exact hrefused.1.elim nofun nofun

end FencingTestProvider
end Locks
end IndieWorker
