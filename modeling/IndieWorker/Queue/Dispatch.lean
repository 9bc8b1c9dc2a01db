import IndieWorker.Lib.Selection
import IndieWorker.Queue

/-!
# Dispatch

A worker that asks again after every claim: each answer of `select_next` leaves the
queue and takes one of the worker's places.  The claims are then what repeated
selection of the least candidate takes out, until the places or the jobs run out.
-/

namespace IndieWorker
namespace Queue

open Minimum

/-- The worker with one job more. -/
def WorkerSnapshot.claimed (worker : WorkerSnapshot) : WorkerSnapshot :=
  { worker with activeJobs := worker.activeJobs + 1 }

/-- What `n` calls of `select_next` hand to a worker that takes every answer. -/
def dispatch (nowSeconds : UInt64) (policy : SchedulingPolicy) :
    Nat → List QueueCandidate → WorkerSnapshot → List QueueCandidate
  | 0, _, _ => []
  | n + 1, candidates, worker =>
    match selectNext candidates worker nowSeconds policy with
    | none => []
    | some c => c :: dispatch nowSeconds policy n (candidates.erase c) worker.claimed

/-- The places a worker has left. -/
def WorkerSnapshot.places (worker : WorkerSnapshot) : Nat :=
  worker.maxConcurrency.toNat - worker.activeJobs.toNat

/-- The worker offers what the job requires, whatever its load. -/
structure Fits (requirements : JobRequirements) (worker : WorkerSnapshot) : Prop where
  os : requirements.os = worker.os
  arch : requirements.arch = worker.arch
  runtime : ∀ required, requirements.runtime = some required → worker.runtime = some required
  profile : requirements.profile = worker.profile
  features : ∀ required ∈ requirements.features, required ∈ worker.features
  trust : requirements.minimumTrustTier ≤ worker.trustTier

theorem eligible_iff {requirements : JobRequirements} {worker : WorkerSnapshot} :
    Eligible requirements worker ↔ 0 < worker.places ∧ Fits requirements worker := by
  have hplaces : worker.activeJobs < worker.maxConcurrency ↔ 0 < worker.places := by
    rw [UInt16.lt_iff_toNat_lt, WorkerSnapshot.places]
    omega
  constructor
  · intro h
    exact ⟨hplaces.mp h.capacity, h.os, h.arch, h.runtime, h.profile, h.features, h.trust⟩
  · intro ⟨hpos, h⟩
    exact ⟨hplaces.mpr hpos, h.os, h.arch, h.runtime, h.profile, h.features, h.trust⟩

theorem fits_claimed {requirements : JobRequirements} {worker : WorkerSnapshot} :
    Fits requirements worker.claimed ↔ Fits requirements worker := by
  constructor
  · intro h
    exact ⟨h.os, h.arch, h.runtime, h.profile, h.features, h.trust⟩
  · intro h
    exact ⟨h.os, h.arch, h.runtime, h.profile, h.features, h.trust⟩

/-- A claim takes one place. -/
theorem places_claimed {worker : WorkerSnapshot} (h : 0 < worker.places) :
    worker.claimed.places + 1 = worker.places := by
  have hmax := worker.maxConcurrency.toNat_lt
  unfold WorkerSnapshot.places at h ⊢
  have hadd : (worker.activeJobs + 1).toNat = worker.activeJobs.toNat + 1 := by
    rw [UInt16.toNat_add, UInt16.toNat_one]
    exact Nat.mod_eq_of_lt (by omega)
  show worker.maxConcurrency.toNat - (worker.activeJobs + 1).toNat + 1 = _
  rw [hadd]
  omega

/-- A job the worker may take now or after some of its jobs are done. -/
def Takeable (worker : WorkerSnapshot) (now : UInt64) (c : QueueCandidate) : Prop :=
  c.availableAtSeconds ≤ now ∧ Fits c.requirements worker

/-- The worker with a single place, and that one free. -/
def WorkerSnapshot.idle (worker : WorkerSnapshot) : WorkerSnapshot :=
  { worker with maxConcurrency := 1, activeJobs := 0 }

theorem fits_iff_idle {requirements : JobRequirements} {worker : WorkerSnapshot} :
    Fits requirements worker ↔ (checkEligibility requirements worker.idle).isOk = true := by
  rw [isOk_checkEligibility_iff, eligible_iff]
  constructor
  · intro h
    exact ⟨Nat.one_pos, h.os, h.arch, h.runtime, h.profile, h.features, h.trust⟩
  · intro ⟨_, h⟩
    exact ⟨h.os, h.arch, h.runtime, h.profile, h.features, h.trust⟩

instance (worker : WorkerSnapshot) (now : UInt64) : DecidablePred (Takeable worker now) :=
  fun _ => decidable_of_iff _ (and_congr_right' fits_iff_idle.symm)

/-- The jobs that wait for this worker. -/
def takeable (worker : WorkerSnapshot) (now : UInt64) (candidates : List QueueCandidate) :
    List QueueCandidate :=
  candidates.filter fun c => Takeable worker now c

theorem mem_takeable {worker : WorkerSnapshot} {now : UInt64} {candidates : List QueueCandidate}
    {c : QueueCandidate} :
    c ∈ takeable worker now candidates ↔ c ∈ candidates ∧ Takeable worker now c := by
  rw [takeable, List.mem_filter, decide_eq_true_iff]

theorem takeable_claimed (worker : WorkerSnapshot) (now : UInt64)
    (candidates : List QueueCandidate) :
    takeable worker.claimed now candidates = takeable worker now candidates := by
  refine List.filter_congr fun c _ => ?_
  rw [decide_eq_decide]
  exact and_congr_right' fits_claimed

/-- With a place left, selection finds the least of the waiting jobs. -/
theorem selectNext_of_places {worker : WorkerSnapshot} (h : 0 < worker.places)
    (candidates : List QueueCandidate) (now : UInt64) (policy : SchedulingPolicy) :
    selectNext candidates worker now policy =
      minBy (fun a b => compareCandidates a b now policy) (takeable worker now candidates) := by
  unfold selectNext takeable
  rw [List.filter_filter]
  congr 1
  refine List.filter_congr fun c _ => ?_
  rw [Bool.eq_iff_iff, Bool.and_eq_true, isOk_checkEligibility_iff, decide_eq_true_iff,
    decide_eq_true_iff, eligible_iff]
  exact ⟨fun hc => ⟨hc.2, hc.1.2⟩, fun hc => ⟨⟨h, hc.2⟩, hc.1⟩⟩

/-- A full worker is handed nothing. -/
theorem selectNext_of_full {worker : WorkerSnapshot} (h : worker.places = 0)
    (candidates : List QueueCandidate) (now : UInt64) (policy : SchedulingPolicy) :
    selectNext candidates worker now policy = none := by
  rw [selectNext, minBy_eq_none_iff, List.eq_nil_iff_forall_not_mem]
  intro c hc
  have hpos := (eligible_iff.mp (mem_selectable_iff.mp hc).2.2).1
  omega

theorem dispatch_eq_taken (now : UInt64) (policy : SchedulingPolicy) (n : Nat)
    (candidates : List QueueCandidate) (worker : WorkerSnapshot) :
    dispatch now policy n candidates worker =
      taken (fun a b => compareCandidates a b now policy) (min n worker.places)
        (takeable worker now candidates) := by
  induction n generalizing candidates worker with
  | zero =>
    rw [Nat.zero_min]
    rfl
  | succ n ih =>
    rcases Nat.eq_zero_or_pos worker.places with hfull | hpos
    · rw [dispatch, selectNext_of_full hfull, hfull, Nat.min_zero]
      rfl
    · have hplaces := places_claimed hpos
      have hturns : min (n + 1) worker.places = min n worker.claimed.places + 1 := by omega
      rw [dispatch, selectNext_of_places hpos, hturns]
      rcases hmin : minBy (fun a b => compareCandidates a b now policy)
          (takeable worker now candidates) with _ | c
      · rw [(minBy_eq_none_iff _).mp hmin, taken_nil]
      · rw [taken_succ hmin]
        dsimp only
        rw [ih, takeable_claimed, takeable, takeable, List.erase_filter]

/-- Of two jobs with distinct identifiers the one that does not come after comes
before. -/
theorem compareCandidates_eq_lt {candidates : List QueueCandidate} {now : UInt64}
    {policy : SchedulingPolicy} (hids : (candidates.map QueueCandidate.jobId).Nodup)
    {c d : QueueCandidate} (hc : c ∈ candidates) (hd : d ∈ candidates) (hne : c ≠ d)
    (hle : (compareCandidates c d now policy).isLE) : compareCandidates c d now policy = .lt := by
  rcases Ordering.isLE_iff_eq_lt_or_eq_eq.mp hle with hlt | heq
  · exact hlt
  · exact absurd (eq_of_compareCandidates_eq hids hc hd heq) hne

/-- What a worker is handed over any number of calls: as many jobs as there are
calls, places and waiting jobs for, each of them once, in the order of the
comparison and before every waiting job it is not handed; and the order of the
rows does not matter. -/
theorem dispatch_exact (now : UInt64) (policy : SchedulingPolicy) (n : Nat)
    (candidates : List QueueCandidate) (worker : WorkerSnapshot)
    (hids : (candidates.map QueueCandidate.jobId).Nodup) :
    (dispatch now policy n candidates worker).length =
        min (min n worker.places) (takeable worker now candidates).length ∧
      (∀ c ∈ dispatch now policy n candidates worker, c ∈ candidates ∧ Takeable worker now c) ∧
      ((dispatch now policy n candidates worker).map QueueCandidate.jobId).Nodup ∧
      (dispatch now policy n candidates worker).Pairwise
        (fun a b => compareCandidates a b now policy = .lt) ∧
      (∀ c ∈ dispatch now policy n candidates worker, ∀ d ∈ candidates, Takeable worker now d →
        d ∉ dispatch now policy n candidates worker → compareCandidates c d now policy = .lt) ∧
      ∀ candidates' : List QueueCandidate, candidates.Perm candidates' →
        dispatch now policy n candidates' worker = dispatch now policy n candidates worker := by
  have hmem : ∀ c, c ∈ takeable worker now candidates → c ∈ candidates := fun c hc =>
    (mem_takeable.mp hc).1
  have hsplit := @taken_append_left _ _ (fun a b => compareCandidates a b now policy)
    (min n worker.places) (takeable worker now candidates)
  have hnodup : (takeable worker now candidates).Nodup := (List.Nodup.of_map _ hids).filter _
  obtain ⟨hsorted, hbefore⟩ := @taken_sorted _ _ (fun a b => compareCandidates a b now policy) _
    (min n worker.places) (takeable worker now candidates)
  have htaken := (List.nodup_append.mp (hsplit.nodup_iff.mpr hnodup)).1
  simp only [dispatch_eq_taken]
  refine ⟨length_taken _ _, fun c hc => mem_takeable.mp (mem_of_mem_taken hc), ?_, ?_,
    fun c hc d hd htakeable hnot => ?_, fun candidates' hperm => ?_⟩
  · refine htaken.map_on fun c hc d hd hid => ?_
    exact List.inj_on_of_nodup_map hids (hmem c (mem_of_mem_taken hc))
      (hmem d (mem_of_mem_taken hd)) hid
  · refine (hsorted.and htaken).imp_of_mem fun hc hd hcd => ?_
    exact compareCandidates_eq_lt hids (hmem _ (mem_of_mem_taken hc))
      (hmem _ (mem_of_mem_taken hd)) hcd.2 hcd.1
  · have hleft : d ∈ left (fun a b => compareCandidates a b now policy) (min n worker.places)
        (takeable worker now candidates) := by
      rcases List.mem_append.mp (hsplit.mem_iff.mpr (mem_takeable.mpr ⟨hd, htakeable⟩)) with h | h
      · exact absurd h hnot
      · exact h
    refine compareCandidates_eq_lt hids (hmem c (mem_of_mem_taken hc)) hd ?_
      (hbefore c hc d hleft)
    rintro rfl
    exact hnot hc
  · refine (taken_perm (hperm.filter _) fun c hc d hd htie => ?_).symm
    exact eq_of_compareCandidates_eq hids (hmem c hc) (hmem d hd) htie

/-- Three jobs for a worker with two places. -/
theorem dispatch_exact_two_places :
    let requirements : JobRequirements := ⟨"linux", "arm64", none, "default", [], .standard⟩
    let worker : WorkerSnapshot := ⟨"w", "linux", "arm64", none, "default", [], .trusted, 3, 1⟩
    (dispatch 10 {} 5 [⟨"a", 1, 0, 0, requirements⟩, ⟨"b", 2, 0, 0, requirements⟩,
      ⟨"c", 3, 0, 0, requirements⟩] worker).length = 2 := by
  intro requirements worker
  rw [(dispatch_exact 10 {} 5 _ worker (by decide)).1]
  decide

end Queue
end IndieWorker
