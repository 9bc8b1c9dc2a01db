import IndieWorker.Lib.Overflow

/-!
# Lease authorities

`src/queue.rs`: who may publish the outcome of a job.  Every reclaim moves three
counters at once, so an authority that has been reclaimed from never compares
equal to a later one.
-/

namespace IndieWorker
namespace Queue

structure LeaseAuthority where
  generation : UInt64
  fencingToken : UInt64
  attempt : UInt32
  deriving DecidableEq, Repr

namespace LeaseAuthority

def initial : LeaseAuthority := ⟨1, 1, 1⟩

/-- The authority of the next holder, unless a counter has run out. -/
def reclaim (a : LeaseAuthority) : Option LeaseAuthority := do
  let generation ← checkedAdd a.generation 1
  let fencingToken ← checkedAdd a.fencingToken 1
  let attempt ← checkedAdd32 a.attempt 1
  return ⟨generation, fencingToken, attempt⟩

def authorizes (a presented : LeaseAuthority) : Bool :=
  a.generation == presented.generation && a.fencingToken == presented.fencingToken &&
    a.attempt == presented.attempt

/-- The authority after `n` reclaims, if they all succeed. -/
def reclaimed (a : LeaseAuthority) : Nat → Option LeaseAuthority
  | 0 => some a
  | n + 1 => (reclaimed a n).bind reclaim

variable {a b x y : LeaseAuthority}

/-- `b` is `n` reclaims ahead of `a`. -/
structure Ahead (n : Nat) (a b : LeaseAuthority) : Prop where
  generation : b.generation.toNat = a.generation.toNat + n
  fencingToken : b.fencingToken.toNat = a.fencingToken.toNat + n
  attempt : b.attempt.toNat = a.attempt.toNat + n

theorem reclaim_eq_some_iff : a.reclaim = some b ↔ Ahead 1 a b := by
  unfold reclaim
  simp only [Option.bind_eq_bind, Option.bind_eq_some_iff, checkedAdd_eq_some_iff,
    checkedAdd32_eq_some_iff, UInt64.toNat_one, UInt32.toNat_one, Option.pure_def,
    Option.some.injEq]
  constructor
  · intro h
    obtain ⟨g, hg, f, hf, t, ht, hb⟩ := h
    subst hb
    exact ⟨hg, hf, ht⟩
  · intro h
    exact ⟨_, h.generation, _, h.fencingToken, _, h.attempt, rfl⟩

/-- A reclaim fails only where a counter has no successor. -/
theorem reclaim_eq_none_iff : a.reclaim = none ↔
    a.generation.toNat = 2 ^ 64 - 1 ∨ a.fencingToken.toNat = 2 ^ 64 - 1 ∨
      a.attempt.toNat = 2 ^ 32 - 1 := by
  have hg := a.generation.toNat_lt
  have hf := a.fencingToken.toNat_lt
  have ht := a.attempt.toNat_lt
  constructor
  · intro h
    by_contra hroom
    have hlt : a.generation.toNat + 1 < 2 ^ 64 ∧ a.fencingToken.toNat + 1 < 2 ^ 64 ∧
        a.attempt.toNat + 1 < 2 ^ 32 := by omega
    have hsome : a.reclaim = some ⟨a.generation + 1, a.fencingToken + 1, a.attempt + 1⟩ := by
      refine reclaim_eq_some_iff.mpr ⟨toNat_add_one hlt.1, toNat_add_one hlt.2.1, ?_⟩
      show (a.attempt + 1).toNat = a.attempt.toNat + 1
      rw [UInt32.toNat_add, UInt32.toNat_one]
      exact Nat.mod_eq_of_lt hlt.2.2
    rw [hsome] at h
    cases h
  · intro h
    rcases hreclaim : a.reclaim with _ | b
    · rfl
    · have hahead := reclaim_eq_some_iff.mp hreclaim
      have hbg := b.generation.toNat_lt
      have hbf := b.fencingToken.toNat_lt
      have hbt := b.attempt.toNat_lt
      rw [hahead.generation] at hbg
      rw [hahead.fencingToken] at hbf
      rw [hahead.attempt] at hbt
      omega

theorem ahead_of_reclaimed {n : Nat} (h : a.reclaimed n = some x) : Ahead n a x := by
  induction n generalizing x with
  | zero =>
    cases h
    exact ⟨rfl, rfl, rfl⟩
  | succ n ih =>
    obtain ⟨w, hw, hx⟩ := Option.bind_eq_some_iff.mp h
    have hfirst := ih hw
    have hlast := reclaim_eq_some_iff.mp hx
    constructor
    · rw [hlast.generation, hfirst.generation, Nat.add_assoc]
    · rw [hlast.fencingToken, hfirst.fencingToken, Nat.add_assoc]
    · rw [hlast.attempt, hfirst.attempt, Nat.add_assoc]

theorem authorizes_iff : a.authorizes b = true ↔ a = b := by
  obtain ⟨g, f, t⟩ := a
  obtain ⟨g', f', t'⟩ := b
  simp [authorizes, and_assoc]

/-- Along any chain of reclaims an authority authorizes itself and no other, and
all counters strictly increase.  A reclaim fails exactly where one of them is at
its maximum. -/
theorem stale_lease_never_authorizes (a : LeaseAuthority) :
    (∀ i j x y, a.reclaimed i = some x → a.reclaimed j = some y →
      (x.authorizes y = true ↔ i = j) ∧
        (i < j → x.generation < y.generation ∧ x.fencingToken < y.fencingToken ∧
          x.attempt < y.attempt)) ∧
    (a.reclaim = none ↔ a.generation.toNat = 2 ^ 64 - 1 ∨ a.fencingToken.toNat = 2 ^ 64 - 1 ∨
      a.attempt.toNat = 2 ^ 32 - 1) := by
  refine ⟨fun i j x y hx hy => ?_, reclaim_eq_none_iff⟩
  have hi := ahead_of_reclaimed hx
  have hj := ahead_of_reclaimed hy
  refine ⟨?_, fun hij => ⟨?_, ?_, ?_⟩⟩
  · rw [authorizes_iff]
    constructor
    · intro hxy
      subst hxy
      have hsame : a.generation.toNat + i = a.generation.toNat + j :=
        hi.generation.symm.trans hj.generation
      omega
    · intro hij
      subst hij
      exact Option.some.inj (hx.symm.trans hy)
  · rw [UInt64.lt_iff_toNat_lt, hi.generation, hj.generation]
    omega
  · rw [UInt64.lt_iff_toNat_lt, hi.fencingToken, hj.fencingToken]
    omega
  · rw [UInt32.lt_iff_toNat_lt, hi.attempt, hj.attempt]
    omega

theorem stale_lease_never_authorizes_initial :
    (∃ second, initial.reclaimed 1 = some second ∧ second.authorizes initial = false) ∧
      (⟨1, 1, UInt32.ofNat (2 ^ 32 - 1)⟩ : LeaseAuthority).reclaim = none := by
  refine ⟨⟨⟨2, 2, 2⟩, by decide, ?_⟩, ?_⟩
  · have h := ((stale_lease_never_authorizes initial).1 1 0 ⟨2, 2, 2⟩ initial (by decide)
      rfl).1
    rw [← Bool.not_eq_true, h]
    exact Nat.one_ne_zero
  · exact (stale_lease_never_authorizes _).2.mpr (by decide)

end LeaseAuthority

end Queue
end IndieWorker
