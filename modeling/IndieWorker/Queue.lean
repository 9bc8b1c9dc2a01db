import IndieWorker.Lib.Decision
import IndieWorker.Lib.Minimum
import IndieWorker.Lib.Overflow
import Mathlib.Order.Basic

/-!
# The durable queue

`src/queue.rs`: which jobs a worker may take, in which order they are taken, and
how waiting raises a priority.  Job identifiers compare by their characters, which
is how their bytes compare.
-/

namespace IndieWorker
namespace Queue

open Decision Minimum

inductive TrustTier where
  | untrusted
  | standard
  | trusted
  | privileged
  deriving DecidableEq, Repr

namespace TrustTier

/-- The place of a tier in the order of the declaration. -/
def rank : TrustTier → Nat
  | untrusted => 0
  | standard => 1
  | trusted => 2
  | privileged => 3

theorem rank_injective : Function.Injective rank := by
  intro s t h
  cases s <;> cases t <;> first | rfl | cases h

instance : LinearOrder TrustTier := LinearOrder.lift' rank rank_injective

end TrustTier

structure JobRequirements where
  os : String
  arch : String
  runtime : Option String
  profile : String
  features : List String
  minimumTrustTier : TrustTier
  deriving DecidableEq

structure WorkerSnapshot where
  workerId : String
  os : String
  arch : String
  runtime : Option String
  profile : String
  features : List String
  trustTier : TrustTier
  maxConcurrency : UInt16
  activeJobs : UInt16
  deriving DecidableEq

inductive EligibilityError where
  | capacityExhausted
  | osMismatch
  | archMismatch
  | runtimeMismatch
  | profileMismatch
  | missingFeature
  | insufficientTrust
  deriving DecidableEq, Repr

def checkEligibility (requirements : JobRequirements) (worker : WorkerSnapshot) :
    Except EligibilityError Unit :=
  if worker.maxConcurrency = 0 ∨ worker.activeJobs ≥ worker.maxConcurrency then
    .error .capacityExhausted
  else if requirements.os ≠ worker.os then .error .osMismatch
  else if requirements.arch ≠ worker.arch then .error .archMismatch
  -- A job that names no runtime runs on any.
  else if requirements.runtime.isSome ∧ worker.runtime ≠ requirements.runtime then
    .error .runtimeMismatch
  else if requirements.profile ≠ worker.profile then .error .profileMismatch
  else if requirements.features.any fun required => !worker.features.contains required then
    .error .missingFeature
  else if worker.trustTier < requirements.minimumTrustTier then .error .insufficientTrust
  else .ok ()

structure SchedulingPolicy where
  ageStepSeconds : UInt64 := 300
  maxAgeBoost : UInt8 := 20
  deriving DecidableEq, Repr

structure QueueCandidate where
  jobId : String
  basePriority : UInt8
  enqueuedAtSeconds : UInt64
  availableAtSeconds : UInt64
  requirements : JobRequirements
  deriving DecidableEq

/-- What waiting adds to a priority, before it is narrowed. -/
def boost (candidate : QueueCandidate) (nowSeconds : UInt64) (policy : SchedulingPolicy) :
    UInt64 :=
  let ageSeconds := saturatingSub nowSeconds candidate.enqueuedAtSeconds
  let ageStep := max policy.ageStepSeconds 1
  let rawBoost := ageSeconds / ageStep
  min rawBoost policy.maxAgeBoost.toUInt64

def effectivePriority (candidate : QueueCandidate) (nowSeconds : UInt64)
    (policy : SchedulingPolicy) : UInt16 :=
  candidate.basePriority.toUInt16 + (boost candidate nowSeconds policy).toUInt16

/-- An order in which `lt` means that `a` is scheduled before `b`. -/
def compareCandidates (a b : QueueCandidate) (nowSeconds : UInt64) (policy : SchedulingPolicy) :
    Ordering :=
  ((compare (effectivePriority b nowSeconds policy) (effectivePriority a nowSeconds policy)).then
    (compare a.availableAtSeconds b.availableAtSeconds)).then
    (compare a.jobId b.jobId)

def selectNext (candidates : List QueueCandidate) (worker : WorkerSnapshot) (nowSeconds : UInt64)
    (policy : SchedulingPolicy) : Option QueueCandidate :=
  minBy (fun a b => compareCandidates a b nowSeconds policy)
    ((candidates.filter fun candidate => candidate.availableAtSeconds ≤ nowSeconds).filter
      fun candidate => (checkEligibility candidate.requirements worker).isOk)

/-! ## Eligibility -/

/-- What a worker offers for a job. -/
structure Eligible (requirements : JobRequirements) (worker : WorkerSnapshot) : Prop where
  capacity : worker.activeJobs < worker.maxConcurrency
  os : requirements.os = worker.os
  arch : requirements.arch = worker.arch
  runtime : ∀ required, requirements.runtime = some required → worker.runtime = some required
  profile : requirements.profile = worker.profile
  features : ∀ required ∈ requirements.features, required ∈ worker.features
  trust : requirements.minimumTrustTier ≤ worker.trustTier

/-- The check passes exactly the workers that offer what the job requires. -/
theorem checkEligibility_eq_ok_iff {requirements : JobRequirements} {worker : WorkerSnapshot} :
    checkEligibility requirements worker = .ok () ↔ Eligible requirements worker := by
  unfold checkEligibility
  simp only [refuse_eq_ok_iff, not_or, not_and, not_not, ge_iff_le, UInt16.not_le, not_lt,
    and_true, List.any_eq_true, Bool.not_eq_true', List.contains_eq_mem, decide_eq_false_iff_not,
    not_exists]
  constructor
  · intro ⟨hcapacity, hos, harch, hruntime, hprofile, hfeatures, htrust⟩
    refine ⟨hcapacity.2, hos, harch, fun required hrequired => ?_, hprofile, hfeatures, htrust⟩
    rw [hruntime (by rw [hrequired]; rfl), hrequired]
  · intro h
    refine ⟨⟨fun hzero => ?_, h.capacity⟩, h.os, h.arch, fun hsome => ?_, h.profile, h.features,
      h.trust⟩
    · have hcapacity := UInt16.lt_iff_toNat_lt.mp h.capacity
      rw [hzero, UInt16.toNat_zero] at hcapacity
      omega
    · obtain ⟨required, hrequired⟩ := Option.isSome_iff_exists.mp hsome
      rw [h.runtime required hrequired, hrequired]

theorem isOk_checkEligibility_iff {requirements : JobRequirements} {worker : WorkerSnapshot} :
    (checkEligibility requirements worker).isOk = true ↔ Eligible requirements worker := by
  rw [← checkEligibility_eq_ok_iff]
  cases checkEligibility requirements worker with
  | error e => exact iff_of_false nofun nofun
  | ok u => exact iff_of_true rfl rfl

/-! ## Aging -/

theorem boost_toNat (c : QueueCandidate) (now : UInt64) (policy : SchedulingPolicy) :
    (boost c now policy).toNat =
      min ((now.toNat - c.enqueuedAtSeconds.toNat) / max policy.ageStepSeconds.toNat 1)
        policy.maxAgeBoost.toNat := by
  rw [boost, min_toNat, UInt64.toNat_div, saturatingSub_toNat, max_toNat, UInt64.toNat_one,
    UInt8.toNat_toUInt64]

theorem boost_le (c : QueueCandidate) (now : UInt64) (policy : SchedulingPolicy) :
    (boost c now policy).toNat ≤ policy.maxAgeBoost.toNat := by
  rw [boost_toNat]
  exact Nat.min_le_right _ _

/-- The boost survives its narrowing. -/
theorem boost_toUInt16 (c : QueueCandidate) (now : UInt64) (policy : SchedulingPolicy) :
    (boost c now policy).toUInt16.toNat = (boost c now policy).toNat := by
  have hle := boost_le c now policy
  have hmax := policy.maxAgeBoost.toNat_lt
  rw [UInt64.toNat_toUInt16]
  exact Nat.mod_eq_of_lt (by omega)

theorem effectivePriority_toNat (c : QueueCandidate) (now : UInt64) (policy : SchedulingPolicy) :
    (effectivePriority c now policy).toNat = c.basePriority.toNat + (boost c now policy).toNat := by
  have hle := boost_le c now policy
  have hmax := policy.maxAgeBoost.toNat_lt
  have hbase := c.basePriority.toNat_lt
  rw [effectivePriority, UInt16.toNat_add, boost_toUInt16, UInt8.toNat_toUInt16]
  exact Nat.mod_eq_of_lt (by omega)

/-- Waiting longer never lowers the boost. -/
theorem boost_mono {c d : QueueCandidate} {now later : UInt64} (policy : SchedulingPolicy)
    (hwait : now.toNat - c.enqueuedAtSeconds.toNat ≤ later.toNat - d.enqueuedAtSeconds.toNat) :
    (boost c now policy).toNat ≤ (boost d later policy).toNat := by
  have hdiv := Nat.div_le_div_right (c := max policy.ageStepSeconds.toNat 1) hwait
  rw [boost_toNat, boost_toNat]
  omega

/-! ## The order of candidates -/

section Order

variable (now : UInt64) (policy : SchedulingPolicy)

/-- The three keys, one after the other. -/
theorem compareCandidates_eq_compareLex :
    (fun a b => compareCandidates a b now policy) =
      compareLex
        (compareLex
          (fun a b => compare (effectivePriority b now policy) (effectivePriority a now policy))
          (compareOn QueueCandidate.availableAtSeconds))
        (compareOn QueueCandidate.jobId) := rfl

theorem transCmp_priority : Std.TransCmp fun a b : QueueCandidate =>
    compare (effectivePriority b now policy) (effectivePriority a now policy) where
  eq_swap := Std.OrientedCmp.eq_swap
  isLE_trans hab hbc := Std.TransCmp.isLE_trans hbc hab

instance : Std.TransCmp fun a b => compareCandidates a b now policy := by
  have hpriority := transCmp_priority now policy
  rw [compareCandidates_eq_compareLex]
  infer_instance

theorem compareCandidates_eq_lt_of_priority {a b : QueueCandidate}
    (h : effectivePriority b now policy < effectivePriority a now policy) :
    compareCandidates a b now policy = .lt := by
  rw [compareCandidates, Std.compare_eq_lt.mpr h]
  rfl

theorem compareCandidates_eq_eq_iff {a b : QueueCandidate} :
    compareCandidates a b now policy = .eq ↔
      effectivePriority a now policy = effectivePriority b now policy ∧
        a.availableAtSeconds = b.availableAtSeconds ∧ a.jobId = b.jobId := by
  rw [compareCandidates, Ordering.then_eq_eq, Ordering.then_eq_eq, Std.compare_eq_iff_eq,
    Std.compare_eq_iff_eq, Std.compare_eq_iff_eq, and_assoc]
  exact and_congr_left' eq_comm

end Order

/-! ## Selection -/

/-- A job that may be taken now. -/
def Selectable (worker : WorkerSnapshot) (now : UInt64) (c : QueueCandidate) : Prop :=
  c.availableAtSeconds ≤ now ∧ Eligible c.requirements worker

theorem mem_selectable_iff {candidates : List QueueCandidate} {worker : WorkerSnapshot}
    {now : UInt64} {c : QueueCandidate} :
    c ∈ ((candidates.filter fun c => c.availableAtSeconds ≤ now).filter
      fun c => (checkEligibility c.requirements worker).isOk) ↔
      c ∈ candidates ∧ Selectable worker now c := by
  rw [List.mem_filter, List.mem_filter, isOk_checkEligibility_iff, decide_eq_true_iff, and_assoc]
  rfl

/-- Candidates with distinct identifiers do not tie. -/
theorem eq_of_compareCandidates_eq {candidates : List QueueCandidate} {now : UInt64}
    {policy : SchedulingPolicy} (hids : (candidates.map QueueCandidate.jobId).Nodup)
    {a b : QueueCandidate} (ha : a ∈ candidates) (hb : b ∈ candidates)
    (h : compareCandidates a b now policy = .eq) : a = b :=
  List.inj_on_of_nodup_map hids ha hb ((compareCandidates_eq_eq_iff now policy).mp h).2.2

theorem selectNext_perm {candidates candidates' : List QueueCandidate}
    (hperm : candidates.Perm candidates') (hids : (candidates.map QueueCandidate.jobId).Nodup)
    (worker : WorkerSnapshot) (now : UInt64) (policy : SchedulingPolicy) :
    selectNext candidates worker now policy = selectNext candidates' worker now policy := by
  refine minBy_perm _ ((hperm.filter _).filter _) fun a ha b hb htie => ?_
  rw [mem_selectable_iff] at ha hb
  exact eq_of_compareCandidates_eq hids ha.1 hb.1 htie

/-- Selection answers with a job that may be taken and that none comes before, if
there is one; the comparison is a preorder that ties only on its three keys; and
distinct identifiers make the answer independent of the order of the rows. -/
theorem selectNext_optimal (worker : WorkerSnapshot) (now : UInt64) (policy : SchedulingPolicy) :
    (∀ candidates, selectNext candidates worker now policy = none ↔
      ∀ c ∈ candidates, ¬ Selectable worker now c) ∧
    (∀ candidates c, selectNext candidates worker now policy = some c →
      c ∈ candidates ∧ Selectable worker now c ∧
        ∀ d ∈ candidates, Selectable worker now d → compareCandidates d c now policy ≠ .lt) ∧
    (∀ a b, compareCandidates a b now policy = (compareCandidates b a now policy).swap) ∧
    (∀ a b c, (compareCandidates a b now policy).isLE → (compareCandidates b c now policy).isLE →
      (compareCandidates a c now policy).isLE) ∧
    (∀ a b, compareCandidates a b now policy = .eq →
      effectivePriority a now policy = effectivePriority b now policy ∧
        a.availableAtSeconds = b.availableAtSeconds ∧ a.jobId = b.jobId) ∧
    (∀ candidates candidates' : List QueueCandidate, candidates.Perm candidates' →
      (candidates.map QueueCandidate.jobId).Nodup →
        selectNext candidates worker now policy = selectNext candidates' worker now policy) := by
  have htrans : Std.TransCmp fun a b => compareCandidates a b now policy := inferInstance
  refine ⟨fun candidates => ?_, fun candidates c hc => ?_, fun a b => htrans.eq_swap,
    fun a b c => htrans.isLE_trans, fun a b => (compareCandidates_eq_eq_iff now policy).mp,
    fun _ _ hperm hids => selectNext_perm hperm hids worker now policy⟩
  · rw [selectNext, minBy_eq_none_iff, List.eq_nil_iff_forall_not_mem]
    simp only [mem_selectable_iff, not_and]
  · have hmem := mem_selectable_iff.mp (minBy_mem _ hc)
    refine ⟨hmem.1, hmem.2, fun d hd hselectable hlt => ?_⟩
    have hle := minBy_isLE _ hc d (mem_selectable_iff.mpr ⟨hd, hselectable⟩)
    have hswap : compareCandidates c d now policy = (compareCandidates d c now policy).swap :=
      htrans.eq_swap
    rw [hswap, hlt] at hle
    cases hle

/-- Aging is exact in the widths of the source, bounded and monotone.  A base
priority further ahead than the greatest boost always wins, and between equal base
priorities the one that waited longer is never behind. -/
theorem aging_keeps_order (policy : SchedulingPolicy) :
    (∀ c now, (boost c now policy).toUInt16.toNat = (boost c now policy).toNat ∧
      c.basePriority.toNat + (boost c now policy).toNat < 2 ^ 16 ∧
        (effectivePriority c now policy).toNat =
          c.basePriority.toNat + (boost c now policy).toNat ∧
        c.basePriority.toNat ≤ (effectivePriority c now policy).toNat ∧
        (effectivePriority c now policy).toNat ≤
          c.basePriority.toNat + policy.maxAgeBoost.toNat) ∧
    (∀ c now later, now ≤ later →
      effectivePriority c now policy ≤ effectivePriority c later policy) ∧
    (∀ (c : QueueCandidate) (now earlier later : UInt64), earlier ≤ later →
      effectivePriority { c with enqueuedAtSeconds := later } now policy ≤
        effectivePriority { c with enqueuedAtSeconds := earlier } now policy) ∧
    (∀ (a b : QueueCandidate) now, b.basePriority.toNat + policy.maxAgeBoost.toNat <
      a.basePriority.toNat → compareCandidates a b now policy = .lt) ∧
    (∀ (a b : QueueCandidate) now, a.basePriority = b.basePriority →
      a.enqueuedAtSeconds ≤ b.enqueuedAtSeconds →
        effectivePriority b now policy ≤ effectivePriority a now policy) := by
  have hwait : ∀ (a b : QueueCandidate) (now later : UInt64), a.basePriority = b.basePriority →
      now.toNat - a.enqueuedAtSeconds.toNat ≤ later.toNat - b.enqueuedAtSeconds.toNat →
        effectivePriority a now policy ≤ effectivePriority b later policy := by
    intro a b now later hbase hle
    have hboost := boost_mono policy hle
    rw [UInt16.le_iff_toNat_le, effectivePriority_toNat, effectivePriority_toNat, hbase]
    omega
  refine ⟨fun c now => ?_, fun c now later hle => ?_, fun c now earlier later hle => ?_,
    fun a b now hgap => ?_, fun a b now hbase hle => ?_⟩
  · have hle := boost_le c now policy
    have hmax := policy.maxAgeBoost.toNat_lt
    have hbase := c.basePriority.toNat_lt
    have hexact := effectivePriority_toNat c now policy
    exact ⟨boost_toUInt16 c now policy, by omega, hexact, by omega, by omega⟩
  · rw [UInt64.le_iff_toNat_le] at hle
    exact hwait c c now later rfl (by omega)
  · rw [UInt64.le_iff_toNat_le] at hle
    exact hwait _ _ now now rfl (by dsimp only; omega)
  · refine compareCandidates_eq_lt_of_priority now policy ?_
    have hle := boost_le b now policy
    rw [UInt16.lt_iff_toNat_lt, effectivePriority_toNat, effectivePriority_toNat]
    omega
  · rw [UInt64.le_iff_toNat_le] at hle
    exact hwait b a now now hbase.symm (by omega)

end Queue
end IndieWorker
