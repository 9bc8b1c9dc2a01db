import IndieWorker.Protocol.Resume

/-!
# Log chunks

`log_chunks_after` and `log_chunk_window` of `src/query/runs.rs` over the rows of
`run_log_chunks`, and what a resume plan made from the window promises.
-/

namespace IndieWorker
namespace Query

open Protocol

/-- A row of `run_log_chunks`.  `rest` stands for the columns that are only
handed on. -/
structure LogChunk (ι β : Type) where
  jobId : ι
  sequence : UInt64
  rest : β
  deriving DecidableEq, Repr

variable {ι β : Type} [DecidableEq ι]

/-- What a job has emitted after `afterSequence`, capped. -/
def logChunksAfter (chunks : List (LogChunk ι β)) (jobId : ι) (afterSequence : Int)
    (limit : UInt64) : List (LogChunk ι β) :=
  ((chunks.filter fun c => c.jobId = jobId ∧ (c.sequence.toNat : Int) > afterSequence).mergeSort
    fun a b => a.sequence ≤ b.sequence).take (min limit.toNat (2 ^ 63 - 1))

structure LogChunkWindow where
  earliest : UInt64
  latest : UInt64
  retained : Nat
  deriving DecidableEq, Repr

/-- The sequence numbers a job retains. -/
def sequences (chunks : List (LogChunk ι β)) (jobId : ι) : List UInt64 :=
  (chunks.filter fun c => c.jobId = jobId).map LogChunk.sequence

/-- The retained sequence window for a job. -/
def logChunkWindow (chunks : List (LogChunk ι β)) (jobId : ι) : LogChunkWindow :=
  let rows := sequences chunks jobId
  ⟨rows.min?.getD 0, rows.max?.getD 0, rows.length⟩

/-- The answer to a client of a job's log. -/
def planFor (chunks : List (LogChunk ι β)) (jobId : ι) (lastSeen : Option UInt64) : Resume :=
  let window := logChunkWindow chunks jobId
  planResume (window.earliest, window.latest) lastSeen

/-! ## What a plan promises -/

/-- No number is missing between two that are retained. -/
def Contiguous (r : List UInt64) : Prop := ∀ a ∈ r, ∀ b ∈ r, ∀ x, a ≤ x → x ≤ b → x ∈ r

/-- The client has not seen this number yet. -/
def Unseen (lastSeen : Option UInt64) (x : UInt64) : Prop := ∀ s, lastSeen = some s → s < x

theorem unseen_some {s x : UInt64} : Unseen (some s) x ↔ s < x :=
  ⟨fun h => h s rfl, fun h _ ht => Option.some.inj ht ▸ h⟩

/-- A replay covers retained numbers only, and exactly those the client has not
seen; a client that is up to date has seen them all. -/
def Promises (r : List UInt64) (lastSeen : Option UInt64) (answer : Resume) : Prop :=
  (∀ start through, answer = .replay start through →
    (∀ x, start ≤ x → x ≤ through → x ∈ r) ∧
      ∀ x, start ≤ x ∧ x ≤ through ↔ x ∈ r ∧ Unseen lastSeen x) ∧
  (answer = .upToDate → ∀ x ∈ r, ¬ Unseen lastSeen x)

/-- The window of a log that is not empty is the whole of it. -/
theorem mem_sequences_iff {chunks : List (LogChunk ι β)} {jobId : ι}
    (hcontiguous : Contiguous (sequences chunks jobId)) (hne : sequences chunks jobId ≠ [])
    (x : UInt64) : x ∈ sequences chunks jobId ↔
      (logChunkWindow chunks jobId).earliest ≤ x ∧ x ≤ (logChunkWindow chunks jobId).latest := by
  obtain ⟨earliest, hmin⟩ := Option.isSome_iff_exists.mp (List.isSome_min?_of_ne_nil hne)
  obtain ⟨latest, hmax⟩ := Option.isSome_iff_exists.mp (List.isSome_max?_of_ne_nil hne)
  simp only [logChunkWindow, hmin, hmax, Option.getD_some]
  rw [List.min?_eq_some_iff] at hmin
  rw [List.max?_eq_some_iff] at hmax
  exact ⟨fun hx => ⟨hmin.2 x hx, hmax.2 x hx⟩, fun hx =>
    hcontiguous earliest hmin.1 latest hmax.1 x hx.1 hx.2⟩

/-- On a log that is not empty every answer keeps its promise. -/
theorem promises_of_ne_nil {chunks : List (LogChunk ι β)} {jobId : ι}
    (hcontiguous : Contiguous (sequences chunks jobId)) (hne : sequences chunks jobId ≠ [])
    (lastSeen : Option UInt64) :
    Promises (sequences chunks jobId) lastSeen (planFor chunks jobId lastSeen) := by
  have hmem := mem_sequences_iff hcontiguous hne
  unfold planFor
  cases lastSeen with
  | none =>
    refine ⟨fun start through hplan => ?_, nofun⟩
    cases hplan
    refine ⟨fun x hstart hthrough => (hmem x).mpr ⟨hstart, hthrough⟩, fun x => ?_⟩
    rw [hmem x]
    exact ⟨fun h => ⟨h, nofun⟩, fun h => h.1⟩
  | some s =>
    rcases planResume_cases (logChunkWindow chunks jobId).earliest
        (logChunkWindow chunks jobId).latest s with
      ⟨hcurrent, hplan⟩ | ⟨_, _, hplan⟩ | ⟨hlt, wanted, hwanted, hretained, hplan⟩
    · dsimp only
      rw [hplan]
      refine ⟨nofun, fun _ x hx => ?_⟩
      rw [unseen_some, UInt64.not_lt]
      exact UInt64.le_trans ((hmem x).mp hx).2 hcurrent
    · dsimp only
      rw [hplan]
      exact ⟨nofun, nofun⟩
    · dsimp only
      rw [hplan]
      refine ⟨fun start through heq => ?_, nofun⟩
      cases heq
      have hafter : ∀ x, wanted ≤ x ↔ s < x := by
        intro x
        rw [UInt64.le_iff_toNat_le, UInt64.lt_iff_toNat_lt]
        omega
      refine ⟨fun x hstart hthrough =>
        (hmem x).mpr ⟨UInt64.le_trans hretained hstart, hthrough⟩, fun x => ?_⟩
      rw [hmem x, unseen_some, hafter]
      exact ⟨fun h => ⟨⟨UInt64.le_trans hretained ((hafter x).mpr h.1), h.2⟩, h.1⟩,
        fun h => ⟨h.2, h.1.2⟩⟩

theorem planFor_seen_of_empty {chunks : List (LogChunk ι β)} {jobId : ι}
    (hempty : sequences chunks jobId = []) (s : UInt64) :
    planFor chunks jobId (some s) = .upToDate := by
  have hcurrent : s ≥ 0 := UInt64.zero_le
  have hplan : planResume (0, 0) (some s) = .upToDate := by
    unfold planResume
    exact if_pos hcurrent
  rw [planFor, logChunkWindow, hempty]
  exact hplan

/-- A plan promises what exists, except to a new client of an empty log. -/
theorem plan_promises_iff {chunks : List (LogChunk ι β)} {jobId : ι}
    (hcontiguous : Contiguous (sequences chunks jobId)) (lastSeen : Option UInt64) :
    Promises (sequences chunks jobId) lastSeen (planFor chunks jobId lastSeen) ↔
      ¬ (sequences chunks jobId = [] ∧ lastSeen = none) := by
  by_cases hempty : sequences chunks jobId = []
  · cases lastSeen with
    | none =>
      have hplan : planFor chunks jobId none = .replay 0 0 := by
        rw [planFor, logChunkWindow, hempty]
        rfl
      rw [hplan, hempty]
      refine iff_of_false (fun h => ?_) fun h => h ⟨rfl, rfl⟩
      have hzero := (h.1 0 0 rfl).1 0 (UInt64.le_refl 0) (UInt64.le_refl 0)
      cases hzero
    | some s =>
      rw [planFor_seen_of_empty hempty, hempty]
      exact iff_of_true ⟨nofun, fun _ x hx => by cases hx⟩ nofun
  · exact iff_of_true (promises_of_ne_nil hcontiguous hempty lastSeen) fun h => hempty h.1

theorem plan_promises_iff_of_trimmed :
    Promises [7, 8] (some 7)
      (planFor ([⟨1, 7, ()⟩, ⟨2, 0, ()⟩, ⟨1, 8, ()⟩] : List (LogChunk Nat Unit)) 1 (some 7)) := by
  have hrows : sequences ([⟨1, 7, ()⟩, ⟨2, 0, ()⟩, ⟨1, 8, ()⟩] : List (LogChunk Nat Unit)) 1 =
      [7, 8] := rfl
  have hcontiguous : Contiguous [7, 8] := by
    intro a ha b hb x hax hxb
    simp only [List.mem_cons, List.not_mem_nil, or_false] at ha hb ⊢
    simp only [← UInt64.toNat_inj, UInt64.le_iff_toNat_le, UInt64.reduceToNat] at ha hb hax hxb ⊢
    omega
  rw [← hrows] at hcontiguous ⊢
  exact (plan_promises_iff hcontiguous (some 7)).mpr fun h => by cases h.2

/-- A new client of a job without chunks is promised chunk 0. -/
theorem empty_log_promised :
    ¬ Promises (sequences ([] : List (LogChunk Nat Unit)) 1) none
      (planFor ([] : List (LogChunk Nat Unit)) 1 none) := by
  intro h
  have hzero := (h.1 0 0 (by decide)).1 0 (by decide) (by decide)
  cases hzero

/-! ## Serving a replay -/

theorem sequences_filter (chunks : List (LogChunk ι β)) (jobId : ι) (s : UInt64) :
    (chunks.filter fun c => c.jobId = jobId ∧ (c.sequence.toNat : Int) > s.toNat).map
        LogChunk.sequence = (sequences chunks jobId).filter fun x => s < x := by
  unfold sequences
  rw [List.filter_map, List.filter_filter]
  refine congrArg _ (List.filter_congr fun c _ => ?_)
  rw [Function.comp_apply, ← Bool.decide_and, decide_eq_decide, UInt64.lt_iff_toNat_lt, gt_iff_lt,
    Int.ofNat_lt, and_comm]

/-- Sorting the numbers of a range that were found in any order gives the
range. -/
theorem mergeSort_eq_inclusive {r : List UInt64} {start through : UInt64} (hnodup : r.Nodup)
    (hmem : ∀ x, x ∈ r ↔ start ≤ x ∧ x ≤ through) :
    (r.mergeSort fun a b => a ≤ b) = inclusive start through := by
  have hincreasing := inclusive_increasing start through
  have hsorted : (r.mergeSort fun a b => a ≤ b).Pairwise (· ≤ ·) := by
    refine (List.pairwise_mergeSort (fun a b c hab hbc => ?_) (fun a b => ?_) r).imp
      of_decide_eq_true
    · exact decide_eq_true (UInt64.le_trans (of_decide_eq_true hab) (of_decide_eq_true hbc))
    · rw [Bool.or_eq_true, decide_eq_true_iff, decide_eq_true_iff]
      exact UInt64.le_total a b
  have hperm : (r.mergeSort fun a b => a ≤ b).Perm (inclusive start through) := by
    refine (List.mergeSort_perm r _).trans ?_
    have hdistinct : (inclusive start through).Nodup := hincreasing.imp UInt64.ne_of_lt
    rw [List.perm_ext_iff_of_nodup hnodup hdistinct]
    exact fun x => (hmem x).trans mem_inclusive.symm
  exact hperm.eq_of_pairwise (fun a b _ _ => UInt64.le_antisymm) hsorted
    (hincreasing.imp UInt64.le_of_lt)

/-- The query after the last seen number returns the promised replay, in
order. -/
theorem replay_served {chunks : List (LogChunk ι β)} {jobId : ι}
    (hcontiguous : Contiguous (sequences chunks jobId)) (hnodup : (sequences chunks jobId).Nodup)
    {s start through limit : UInt64}
    (hplan : planFor chunks jobId (some s) = .replay start through)
    (hlimit : through.toNat + 1 - start.toNat ≤ min limit.toNat (2 ^ 63 - 1)) :
    (logChunksAfter chunks jobId s.toNat limit).map LogChunk.sequence =
      inclusive start through := by
  have hne : sequences chunks jobId ≠ [] := by
    intro hempty
    rw [planFor_seen_of_empty hempty] at hplan
    cases hplan
  have hexact := ((promises_of_ne_nil hcontiguous hne (some s)).1 start through hplan).2
  have hmem : ∀ x, x ∈ (sequences chunks jobId).filter (fun x => s < x) ↔
      start ≤ x ∧ x ≤ through := by
    intro x
    rw [List.mem_filter, decide_eq_true_iff, hexact, unseen_some]
  have hsorted := List.map_mergeSort (r := fun a b : LogChunk ι β => a.sequence ≤ b.sequence)
    (s := fun a b => a ≤ b) (f := LogChunk.sequence)
    (l := chunks.filter fun c => c.jobId = jobId ∧ (c.sequence.toNat : Int) > s.toNat)
    fun _ _ _ _ => rfl
  unfold logChunksAfter
  rw [List.map_take, hsorted, sequences_filter, mergeSort_eq_inclusive (hnodup.filter _) hmem]
  refine List.take_of_length_le ?_
  rw [← List.length_map UInt64.toNat, map_toNat_inclusive, List.length_range']
  exact hlimit

end Query
end IndieWorker
