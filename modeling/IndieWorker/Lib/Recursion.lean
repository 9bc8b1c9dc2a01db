/-
When a recursive procedure that may throw comes to an end.

A call either throws on its own account or makes further calls, in order, and the
first of these that throws ends it.  A call that returns has only quiet calls
below it; a call is entered once those before it are quiet.  Over finitely many
calls the procedure comes to an end exactly when it enters no call below itself.
-/
import Mathlib.Data.Set.Finite.Basic
import Mathlib.Data.Fintype.Order
import Mathlib.Logic.Relation
import Mathlib.Order.WellFounded

namespace IndieWorker
namespace Recursion

inductive Outcome where
  | returned
  | threw
  | outOfSteps
  deriving DecidableEq, Repr

variable {π : Type}

/-- The calls in order, up to the first that does not return. -/
def runAll (f : π → Outcome) : List π → Outcome
  | [] => .returned
  | c :: cs =>
    match f c with
    | .returned => runAll f cs
    | stop => stop

section Procedure

variable (throws : π → Bool) (calls : π → List π)

/-- The outcome of a call within a number of nested steps. -/
def eval : ℕ → π → Outcome
  | 0, _ => .outOfSteps
  | n + 1, p => if throws p then .threw else runAll (eval n) (calls p)

def Calls (p c : π) : Prop := throws p = false ∧ c ∈ calls p

/-- Nothing below throws, and nothing below is called below itself. -/
def Quiet (p : π) : Prop :=
  ∀ q, Relation.ReflTransGen (Calls throws calls) p q →
    throws q = false ∧ ¬ Relation.TransGen (Calls throws calls) q q

/-- The call is made, and those made before it are quiet. -/
def Enters (p c : π) : Prop :=
  throws p = false ∧ ∃ before after, calls p = before ++ c :: after ∧
    ∀ b ∈ before, Quiet throws calls b

/-- No call that is entered is entered again below itself. -/
def Grounded (p : π) : Prop :=
  ∀ q, Relation.ReflTransGen (Enters throws calls) p q →
    ¬ Relation.TransGen (Enters throws calls) q q

end Procedure

/-! ## Running calls in order -/

section RunAll

variable {f g : π → Outcome}

theorem runAll_eq_returned_iff {cs : List π} :
    runAll f cs = .returned ↔ ∀ c ∈ cs, f c = .returned := by
  induction cs with
  | nil => simp [runAll]
  | cons c cs ih =>
    rw [runAll, List.forall_mem_cons]
    cases hc : f c <;> simp [ih]

theorem runAll_append {before cs : List π} :
    runAll f (before ++ cs) =
      match runAll f before with
      | .returned => runAll f cs
      | stop => stop := by
  induction before with
  | nil => rfl
  | cons b before ih =>
    rw [List.cons_append, runAll, runAll]
    cases hb : f b with
    | returned => exact ih
    | _ => rfl

/-- The calls before one that was reached have returned or thrown. -/
theorem runAll_reached {before after : List π} {c : π}
    (h : runAll f (before ++ c :: after) ≠ .outOfSteps) (hquiet : ∀ b ∈ before, f b ≠ .threw) :
    f c ≠ .outOfSteps := by
  induction before with
  | nil =>
    intro hc
    rw [List.nil_append, runAll, hc] at h
    exact h rfl
  | cons b before ih =>
    obtain ⟨hb, hbefore⟩ := List.forall_mem_cons.mp hquiet
    rw [List.cons_append, runAll] at h
    cases hfb : f b with
    | returned =>
      rw [hfb] at h
      exact ih h hbefore
    | threw => exact absurd hfb hb
    | outOfSteps =>
      rw [hfb] at h
      exact absurd rfl h

theorem runAll_mono {cs : List π} (h : ∀ c, f c ≠ .outOfSteps → g c = f c)
    (hrun : runAll f cs ≠ .outOfSteps) : runAll g cs = runAll f cs := by
  induction cs with
  | nil => rfl
  | cons c cs ih =>
    rw [runAll] at hrun ⊢
    cases hc : f c with
    | returned =>
      rw [hc] at hrun
      rw [h c (by rw [hc]; nofun), hc]
      rw [runAll, hc]
      exact ih hrun
    | threw => rw [h c (by rw [hc]; nofun), hc, runAll, hc]
    | outOfSteps =>
      rw [hc] at hrun
      exact absurd rfl hrun

end RunAll

section Procedure

variable {throws : π → Bool} {calls : π → List π} {n : ℕ} {p : π}

theorem eval_succ_mono (h : eval throws calls n p ≠ .outOfSteps) :
    eval throws calls (n + 1) p = eval throws calls n p := by
  induction n generalizing p with
  | zero => exact absurd rfl h
  | succ n ih =>
    rw [eval] at h ⊢
    rw [eval]
    by_cases hp : throws p = true
    · rw [if_pos hp, if_pos hp]
    · rw [if_neg hp] at h
      rw [if_neg hp, if_neg hp]
      exact runAll_mono (fun c hc => ih hc) h

theorem eval_mono {m : ℕ} (hle : n ≤ m) (h : eval throws calls n p ≠ .outOfSteps) :
    eval throws calls m p = eval throws calls n p := by
  induction m, hle using Nat.le_induction with
  | base => rfl
  | succ m _ ih => rw [eval_succ_mono (by rwa [ih]), ih]

/-! ## What an outcome says of the calls below -/

theorem calls_of_returned (h : eval throws calls n p = .returned) {c : π}
    (hc : Calls throws calls p c) : ∃ m < n, eval throws calls m c = .returned := by
  cases n with
  | zero => cases h
  | succ n =>
    rw [eval, if_neg (by simp [hc.1])] at h
    exact ⟨n, Nat.lt_succ_self n, runAll_eq_returned_iff.mp h c hc.2⟩

theorem throws_of_returned (h : eval throws calls n p = .returned) : throws p = false := by
  cases n with
  | zero => cases h
  | succ n =>
    rw [eval] at h
    by_contra hp
    rw [if_pos (by simpa using hp)] at h
    cases h

/-- A relation along which a number of steps falls has no way back. -/
theorem not_transGen_self {r : π → π → Prop} {P : ℕ → π → Prop}
    (h : ∀ n p c, P n p → r p c → ∃ m < n, P m c) (hp : P n p) : ¬ Relation.TransGen r p p := by
  have hfall : ∀ n p q, P n p → Relation.TransGen r p q → ∃ m < n, P m q := by
    intro n p q hp hpq
    induction hpq with
    | single hstep => exact h n p _ hp hstep
    | tail _ hstep ih =>
      obtain ⟨m, hm, hq⟩ := ih
      obtain ⟨k, hk, hc⟩ := h m _ _ hq hstep
      exact ⟨k, hk.trans hm, hc⟩
  intro hcycle
  induction n using Nat.strongRecOn with
  | _ n ih =>
    obtain ⟨m, hm, hp'⟩ := hfall n p p hp hcycle
    exact ih m hm hp'

/-- What a relation below falls along holds somewhere along all of it. -/
theorem exists_of_reflTransGen {r : π → π → Prop} {P : ℕ → π → Prop}
    (h : ∀ n p c, P n p → r p c → ∃ m < n, P m c) (hp : P n p) {q : π}
    (hpq : Relation.ReflTransGen r p q) : ∃ m, P m q := by
  induction hpq with
  | refl => exact ⟨n, hp⟩
  | tail _ hstep ih =>
    obtain ⟨m, hq⟩ := ih
    obtain ⟨k, -, hc⟩ := h m _ _ hq hstep
    exact ⟨k, hc⟩

theorem quiet_of_returned (h : eval throws calls n p = .returned) : Quiet throws calls p := by
  intro q hpq
  have hfall : ∀ n p c, eval throws calls n p = .returned → Calls throws calls p c →
      ∃ m < n, eval throws calls m c = .returned := fun n p c hp hc => calls_of_returned hp hc
  obtain ⟨m, hq⟩ := exists_of_reflTransGen hfall h hpq
  exact ⟨throws_of_returned hq, not_transGen_self hfall hq⟩

theorem not_threw_of_quiet (h : Quiet throws calls p) : eval throws calls n p ≠ .threw := by
  induction n generalizing p with
  | zero => nofun
  | succ n ih =>
    have hp := (h p .refl).1
    intro hthrew
    rw [eval, if_neg (by simp [hp])] at hthrew
    have hcalls : ∀ c ∈ calls p, eval throws calls n c ≠ .threw := by
      intro c hc
      apply ih
      exact fun q hq => h q (.head ⟨hp, hc⟩ hq)
    generalize calls p = cs at hthrew hcalls
    induction cs with
    | nil => cases hthrew
    | cons c cs ihcs =>
      obtain ⟨hc, hcs⟩ := List.forall_mem_cons.mp hcalls
      rw [runAll] at hthrew
      cases hrun : eval throws calls n c with
      | returned =>
        rw [hrun] at hthrew
        exact ihcs hthrew hcs
      | threw => exact hc hrun
      | outOfSteps =>
        rw [hrun] at hthrew
        cases hthrew

theorem enters_of_ended (h : eval throws calls n p ≠ .outOfSteps) {c : π}
    (hc : Enters throws calls p c) : ∃ m < n, eval throws calls m c ≠ .outOfSteps := by
  cases n with
  | zero => exact absurd rfl h
  | succ n =>
    obtain ⟨hp, before, after, heq, hquiet⟩ := hc
    rw [eval, if_neg (by simp [hp]), heq] at h
    exact ⟨n, Nat.lt_succ_self n,
      runAll_reached h fun b hb => not_threw_of_quiet (hquiet b hb)⟩

/-! ## Coming to an end -/

/-- The calls of one that throws nothing itself, once each that is entered ends. -/
theorem runAll_ends (hp : throws p = false)
    (hends : ∀ c, Enters throws calls p c → ∃ n, eval throws calls n c ≠ .outOfSteps)
    {before rest : List π} (heq : calls p = before ++ rest)
    (hbefore : ∀ b ∈ before, ∃ n, eval throws calls n b = .returned) :
    ∃ n, runAll (eval throws calls n) rest ≠ .outOfSteps := by
  induction rest generalizing before with
  | nil => exact ⟨0, nofun⟩
  | cons c rest ih =>
    have hquiet : ∀ b ∈ before, Quiet throws calls b := by
      intro b hb
      obtain ⟨n, hn⟩ := hbefore b hb
      exact quiet_of_returned hn
    obtain ⟨n, hn⟩ := hends c ⟨hp, before, rest, heq, hquiet⟩
    cases hc : eval throws calls n c with
    | outOfSteps => exact absurd hc hn
    | threw =>
      refine ⟨n, ?_⟩
      rw [runAll, hc]
      nofun
    | returned =>
      have hbefore' : ∀ b ∈ before ++ [c], ∃ n, eval throws calls n b = .returned := by
        intro b hb
        rcases List.mem_append.mp hb with hb | hb
        · exact hbefore b hb
        · rw [List.mem_singleton.mp hb]
          exact ⟨n, hc⟩
      obtain ⟨m, hm⟩ := ih (by rw [heq, List.append_assoc]; rfl) hbefore'
      refine ⟨max n m, ?_⟩
      have hrest : runAll (eval throws calls (max n m)) rest = runAll (eval throws calls m) rest :=
        runAll_mono (fun d hd => eval_mono (le_max_right n m) hd) hm
      rw [runAll, eval_mono (le_max_left n m) hn, hc]
      exact hrest ▸ hm

/-- Over finitely many calls, a call ends exactly when it is grounded. -/
theorem ends_iff_grounded {S : Set π} (hfinite : S.Finite)
    (hclosed : ∀ p ∈ S, ∀ c ∈ calls p, c ∈ S) (hp : p ∈ S) :
    (∃ n, eval throws calls n p ≠ .outOfSteps) ↔ Grounded throws calls p := by
  constructor
  · intro hend q hpq
    obtain ⟨n, hn⟩ := hend
    have hfall : ∀ n p c, eval throws calls n p ≠ .outOfSteps → Enters throws calls p c →
        ∃ m < n, eval throws calls m c ≠ .outOfSteps := fun n p c hp hc => enters_of_ended hp hc
    obtain ⟨m, hq⟩ := exists_of_reflTransGen hfall hn hpq
    exact not_transGen_self hfall hq
  · intro hgrounded
    have hmem : ∀ q, Relation.ReflTransGen (Enters throws calls) p q → q ∈ S := by
      intro q hpq
      induction hpq with
      | refl => exact hp
      | tail _ hstep ih =>
        obtain ⟨-, before, after, heq, -⟩ := hstep
        exact hclosed _ ih _ (by rw [heq]; simp)
    -- what is entered below is a well-founded relation on what is entered at all
    let T := {q : π // Relation.ReflTransGen (Enters throws calls) p q}
    have hfin : Finite T := hfinite.subset (fun q hq => hmem q hq)
    let below : T → T → Prop := fun c q => Relation.TransGen (Enters throws calls) q.1 c.1
    have htrans : IsTrans T below := ⟨fun a b c hab hbc => hbc.trans hab⟩
    have hirrefl : Std.Irrefl below := ⟨fun a ha => hgrounded a.1 a.2 ha⟩
    have hwf : WellFounded below := Finite.wellFounded_of_trans_of_irrefl below
    have hends : ∀ q : T, ∃ n, eval throws calls n q.1 ≠ .outOfSteps := by
      intro q
      induction q using hwf.induction with
      | _ q ih =>
        by_cases hq : throws q.1 = true
        · refine ⟨1, ?_⟩
          rw [eval, if_pos hq]
          nofun
        · have hq' : throws q.1 = false := by simpa using hq
          have hcalls : ∀ c, Enters throws calls q.1 c →
              ∃ n, eval throws calls n c ≠ .outOfSteps :=
            fun c hc => ih ⟨c, q.2.tail hc⟩ (.single hc)
          obtain ⟨n, hn⟩ := runAll_ends hq' hcalls (List.nil_append _).symm nofun
          refine ⟨n + 1, ?_⟩
          rw [eval, if_neg hq]
          exact hn
    exact hends ⟨p, .refl⟩

/-- Where every call falls in some measure, everything is grounded. -/
theorem grounded_of_measure (μ : π → ℕ) (h : ∀ q, Relation.ReflTransGen (Calls throws calls) p q →
    ∀ c, Calls throws calls q c → μ c < μ q) : Grounded throws calls p := by
  have hcalls : ∀ q c, Enters throws calls q c → Calls throws calls q c := by
    intro q c hc
    obtain ⟨hq, before, after, heq, -⟩ := hc
    exact ⟨hq, by rw [heq]; simp⟩
  intro q hpq hcycle
  have hreach : Relation.ReflTransGen (Calls throws calls) p q :=
    Relation.ReflTransGen.mono hcalls _ _ hpq
  have hfall : ∀ c, Relation.TransGen (Enters throws calls) q c → μ c < μ q ∧
      Relation.ReflTransGen (Calls throws calls) p c := by
    intro c hqc
    induction hqc with
    | single hstep =>
      exact ⟨h q hreach _ (hcalls _ _ hstep), hreach.tail (hcalls _ _ hstep)⟩
    | tail _ hstep ih =>
      exact ⟨(h _ ih.2 _ (hcalls _ _ hstep)).trans ih.1, ih.2.tail (hcalls _ _ hstep)⟩
  exact lt_irrefl _ (hfall q hcycle).1

end Procedure
end Recursion
end IndieWorker
