import IndieWorker.BuildLogs
import IndieWorker.Lib.Batching
import IndieWorker.Lib.Decision

/-!
# The build-log buffer

`BufferPolicy` and `plan_buffer_action` of `src/build_logs.rs`, and a buffer that
follows the plan.  `usize` is 64 bits wide.
-/

namespace IndieWorker
namespace BuildLogs

open Decision Run

inductive BufferPolicyError where
  | zeroLimit
  | recordLimitExceedsBuffer
  | counterOverflow
  deriving DecidableEq, Repr

structure BufferPolicy where
  maxRecords : UInt64
  maxBufferBytes : UInt64
  maxRecordBytes : UInt64
  deriving DecidableEq, Repr

def BufferPolicy.new (maxRecords maxBufferBytes maxRecordBytes : UInt64) :
    Except BufferPolicyError BufferPolicy :=
  if maxRecords = 0 ∨ maxBufferBytes = 0 ∨ maxRecordBytes = 0 then .error .zeroLimit
  else if maxRecordBytes > maxBufferBytes then .error .recordLimitExceedsBuffer
  else .ok ⟨maxRecords, maxBufferBytes, maxRecordBytes⟩

inductive BufferAction where
  | enqueue
  | flushThenEnqueue
  | rejectOversize
  deriving DecidableEq, Repr

def planBufferAction (policy : BufferPolicy) (bufferedRecords bufferedBytes recordBytes : UInt64) :
    Except BufferPolicyError BufferAction :=
  if recordBytes > policy.maxRecordBytes ∨ recordBytes > policy.maxBufferBytes then
    .ok .rejectOversize
  else
    match checkedAdd bufferedRecords 1 with
    | none => .error .counterOverflow
    | some nextRecords =>
      match checkedAdd bufferedBytes recordBytes with
      | none => .error .counterOverflow
      | some nextBytes =>
        if nextRecords > policy.maxRecords ∨ nextBytes > policy.maxBufferBytes then
          .ok .flushThenEnqueue
        else .ok .enqueue

/-! ## Following the plan -/

section Buffer

variable {ρ : Type} (size : ρ → UInt64)

/-- The bytes of the records of a buffer. -/
def bufferBytes (records : List ρ) : Nat := (records.map fun r => (size r).toNat).sum

/-- What the plan says for the next record, from what the buffer holds. -/
def bufferPlan (policy : BufferPolicy) (held : List ρ) (record : ρ) :
    Except BufferPolicyError BufferAction :=
  planBufferAction policy (.ofNat held.length) (.ofNat (bufferBytes size held)) (size record)

/-- The plan is followed; an error changes nothing. -/
def follow (policy : BufferPolicy) (held : List ρ) (record : ρ) :
    Option (List ρ × Except BufferPolicyError BufferAction) :=
  match bufferPlan size policy held record with
  | .ok .enqueue => some (held ++ [record], .ok .enqueue)
  | .ok .flushThenEnqueue => some ([record], .ok .flushThenEnqueue)
  | .ok .rejectOversize => some (held, .ok .rejectOversize)
  | .error e => some (held, .error e)

abbrev BufferStep (ρ : Type) := Entry (List ρ) ρ (Except BufferPolicyError BufferAction)

/-- The batches a history emitted, in order. -/
def batches (h : List (BufferStep ρ)) : List (List ρ) :=
  h.filterMap fun x => if x.output = .ok .flushThenEnqueue then some x.before else none

def isEnqueued (x : BufferStep ρ) : Bool :=
  x.output = .ok .enqueue ∨ x.output = .ok .flushThenEnqueue

/-- The records a history took in, in order. -/
def enqueued (h : List (BufferStep ρ)) : List ρ := (h.filter isEnqueued).map Entry.event

/-- The buffer keeps the limits of the policy. -/
def WithinLimits (policy : BufferPolicy) (records : List ρ) : Prop :=
  records.length ≤ policy.maxRecords.toNat ∧
    bufferBytes size records ≤ policy.maxBufferBytes.toNat

/-- The counters of a full buffer can exceed their types. -/
def BufferPolicy.MayOverflow (policy : BufferPolicy) : Prop :=
  policy.maxRecords.toNat = 2 ^ 64 - 1 ∨
    policy.maxBufferBytes.toNat + policy.maxRecordBytes.toNat > 2 ^ 64 - 1

variable {size}

theorem bufferBytes_concat (records : List ρ) (r : ρ) :
    bufferBytes size (records ++ [r]) = bufferBytes size records + (size r).toNat := by
  simp [bufferBytes]

/-- A policy that was accepted. -/
structure BufferPolicy.Valid (policy : BufferPolicy) : Prop where
  records : 0 < policy.maxRecords.toNat
  record_le : policy.maxRecordBytes.toNat ≤ policy.maxBufferBytes.toNat

theorem BufferPolicy.valid_of_new {maxRecords maxBufferBytes maxRecordBytes : UInt64}
    {policy : BufferPolicy} (h : new maxRecords maxBufferBytes maxRecordBytes = .ok policy) :
    policy.Valid := by
  unfold new at h
  rw [refuse_eq_ok_iff, refuse_eq_ok_iff] at h
  obtain ⟨hzero, hlimit, hpolicy⟩ := h
  cases hpolicy
  constructor
  · have hne : maxRecords ≠ 0 := fun h => hzero (Or.inl h)
    rw [← UInt64.toNat_inj.ne, UInt64.toNat_zero] at hne
    exact Nat.pos_of_ne_zero hne
  · exact UInt64.le_iff_toNat_le.mp (UInt64.not_lt.mp hlimit)

/-- What the plan says of a buffer within its limits. -/
theorem bufferPlan_cases {policy : BufferPolicy} {held : List ρ} (record : ρ)
    (hvalid : policy.Valid) (hheld : WithinLimits size policy held) :
    (size record > policy.maxRecordBytes ∧
      bufferPlan size policy held record = .ok .rejectOversize) ∨
    (size record ≤ policy.maxRecordBytes ∧
      ((policy.MayOverflow ∧ bufferPlan size policy held record = .error .counterOverflow) ∨
        (WithinLimits size policy (held ++ [record]) ∧
          bufferPlan size policy held record = .ok .enqueue) ∨
        (held ≠ [] ∧ bufferPlan size policy held record = .ok .flushThenEnqueue))) := by
  obtain ⟨hrecords, hbytes⟩ := hheld
  have hcount : (UInt64.ofNat held.length).toNat = held.length := by
    have := policy.maxRecords.toNat_lt
    exact UInt64.toNat_ofNat_of_lt' (show held.length < 2 ^ 64 by omega)
  have hsum : (UInt64.ofNat (bufferBytes size held)).toNat = bufferBytes size held := by
    have := policy.maxBufferBytes.toNat_lt
    exact UInt64.toNat_ofNat_of_lt' (show bufferBytes size held < 2 ^ 64 by omega)
  have hrecordLe := hvalid.record_le
  unfold bufferPlan planBufferAction
  by_cases hbig : size record > policy.maxRecordBytes
  · exact Or.inl ⟨hbig, if_pos (Or.inl hbig)⟩
  · have hsize : (size record).toNat ≤ policy.maxRecordBytes.toNat :=
      UInt64.le_iff_toNat_le.mp (UInt64.not_lt.mp hbig)
    have hfits : ¬ size record > policy.maxBufferBytes := by
      rw [gt_iff_lt, UInt64.lt_iff_toNat_lt]
      omega
    rw [if_neg (not_or.mpr ⟨hbig, hfits⟩)]
    refine Or.inr ⟨UInt64.not_lt.mp hbig, ?_⟩
    rcases hnextRecords : checkedAdd (.ofNat held.length) 1 with _ | nextRecords
    · rw [checkedAdd_eq_none_iff, hcount, UInt64.toNat_one] at hnextRecords
      have := policy.maxRecords.toNat_lt
      exact Or.inl ⟨Or.inl (by omega), rfl⟩
    · rcases hnextBytes : checkedAdd (.ofNat (bufferBytes size held)) (size record) with
        _ | nextBytes
      · rw [checkedAdd_eq_none_iff, hsum] at hnextBytes
        exact Or.inl ⟨Or.inr (by omega), rfl⟩
      · rw [checkedAdd_eq_some_iff, hcount, UInt64.toNat_one] at hnextRecords
        rw [checkedAdd_eq_some_iff, hsum] at hnextBytes
        dsimp only
        by_cases hfull : nextRecords > policy.maxRecords ∨ nextBytes > policy.maxBufferBytes
        · rw [if_pos hfull]
          refine Or.inr (Or.inr ⟨fun hempty => ?_, rfl⟩)
          -- One record within the limits fits an empty buffer.
          have hpos := hvalid.records
          subst hempty
          simp only [gt_iff_lt, UInt64.lt_iff_toNat_lt, hnextRecords, hnextBytes, bufferBytes,
            List.length_nil, List.map_nil, List.sum_nil] at hfull
          omega
        · rw [if_neg hfull]
          refine Or.inr (Or.inl ⟨⟨?_, ?_⟩, rfl⟩)
          · rw [List.length_append, List.length_singleton]
            have := UInt64.le_iff_toNat_le.mp (UInt64.not_lt.mp (not_or.mp hfull).1)
            omega
          · rw [bufferBytes_concat]
            have := UInt64.le_iff_toNat_le.mp (UInt64.not_lt.mp (not_or.mp hfull).2)
            omega

theorem withinLimits_nil (policy : BufferPolicy) : WithinLimits size policy ([] : List ρ) :=
  ⟨Nat.zero_le _, Nat.zero_le _⟩

theorem withinLimits_singleton {policy : BufferPolicy} {r : ρ} (hvalid : policy.Valid)
    (hsize : size r ≤ policy.maxRecordBytes) : WithinLimits size policy [r] := by
  have hle := UInt64.le_iff_toNat_le.mp hsize
  refine ⟨hvalid.records, ?_⟩
  show (size r).toNat + 0 ≤ _
  exact Nat.le_trans hle hvalid.record_le

/-- What following the plan does with one record. -/
theorem follow_cases {policy : BufferPolicy} {held held' : List ρ} {r : ρ}
    {o : Except BufferPolicyError BufferAction} (hvalid : policy.Valid)
    (hheld : WithinLimits size policy held) (hstep : follow size policy held r = some (held', o)) :
    (size r > policy.maxRecordBytes ∧ held' = held ∧ o = .ok .rejectOversize) ∨
    (size r ≤ policy.maxRecordBytes ∧ policy.MayOverflow ∧ held' = held ∧
      o = .error .counterOverflow) ∨
    (size r ≤ policy.maxRecordBytes ∧ WithinLimits size policy (held ++ [r]) ∧
      held' = held ++ [r] ∧ o = .ok .enqueue) ∨
    (size r ≤ policy.maxRecordBytes ∧ held ≠ [] ∧ WithinLimits size policy [r] ∧
      held' = [r] ∧ o = .ok .flushThenEnqueue) := by
  unfold follow at hstep
  rcases bufferPlan_cases r hvalid hheld with ⟨hbig, hplan⟩ |
    ⟨hsize, ⟨hover, hplan⟩ | ⟨hfits, hplan⟩ | ⟨hne, hplan⟩⟩
  · rw [hplan] at hstep
    cases hstep
    exact Or.inl ⟨hbig, rfl, rfl⟩
  · rw [hplan] at hstep
    cases hstep
    exact Or.inr (Or.inl ⟨hsize, hover, rfl, rfl⟩)
  · rw [hplan] at hstep
    cases hstep
    exact Or.inr (Or.inr (Or.inl ⟨hsize, hfits, rfl, rfl⟩))
  · rw [hplan] at hstep
    cases hstep
    exact Or.inr (Or.inr (Or.inr
      ⟨hsize, hne, withinLimits_singleton hvalid hsize, rfl, rfl⟩))

theorem follow_total (size : ρ → UInt64) (policy : BufferPolicy) (held : List ρ) (r : ρ) :
    (follow size policy held r).isSome := by
  unfold follow
  split <;> rfl

/-! ## Runs -/

/-- A run of the buffer as batches and what is held. -/
def batched (h : List (BufferStep ρ)) (held : List ρ) : Batching.State ρ := ⟨batches h, held⟩

theorem batches_concat (h : List (BufferStep ρ)) (x : BufferStep ρ) :
    batches (h ++ [x]) =
      batches h ++ (if x.output = .ok .flushThenEnqueue then [x.before] else []) := by
  rw [batches, List.filterMap_append]
  by_cases hx : x.output = .ok .flushThenEnqueue
  · simp [batches, hx]
  · simp [batches, hx]

theorem enqueued_concat (h : List (BufferStep ρ)) (x : BufferStep ρ) :
    enqueued (h ++ [x]) = enqueued h ++ (if isEnqueued x then some x.event else none).toList := by
  rw [enqueued, List.filter_append, List.map_append]
  by_cases hx : isEnqueued x = true
  · simp [enqueued, hx]
  · simp [enqueued, hx]

/-- Following the plan is a move of the buffer. -/
theorem follow_move {policy : BufferPolicy} (h : List (BufferStep ρ)) {held held' : List ρ}
    {r : ρ} {o : Except BufferPolicyError BufferAction} (hvalid : policy.Valid)
    (hheld : WithinLimits size policy held) (hstep : follow size policy held r = some (held', o)) :
    Batching.Move (WithinLimits size policy) (batched h held)
      (if isEnqueued ⟨held, r, o, held'⟩ then some r else none)
      (batched (h ++ [⟨held, r, o, held'⟩]) held') := by
  unfold batched
  rw [batches_concat]
  rcases follow_cases hvalid hheld hstep with ⟨_, rfl, rfl⟩ | ⟨_, _, rfl, rfl⟩ |
    ⟨_, hfits, rfl, rfl⟩ | ⟨_, hne, hfits, rfl, rfl⟩
  · simpa [isEnqueued] using Batching.Move.stay
  · simpa [isEnqueued] using Batching.Move.stay
  · simpa [isEnqueued] using Batching.Move.append (s := ⟨batches h, held⟩) hfits
  · simpa [isEnqueued] using Batching.Move.flush (s := ⟨batches h, held⟩) hne hfits

/-- The account of a run that started from an empty buffer. -/
theorem account (size : ρ → UInt64) {policy : BufferPolicy} (hvalid : policy.Valid)
    (records : List ρ) :
    Batching.Sound (WithinLimits size policy)
        (batched (trace (follow size policy) [] records) (final (follow size policy) [] records)) ∧
      (batched (trace (follow size policy) [] records)
        (final (follow size policy) [] records)).all =
          enqueued (trace (follow size policy) [] records) := by
  refine history_invariant_start
    (fun h held => Batching.Sound (WithinLimits size policy) (batched h held) ∧
      (batched h held).all = enqueued h) ?_ ?_ records
  · exact ⟨⟨withinLimits_nil policy, nofun⟩, rfl⟩
  · intro h held r held' o ⟨hsound, hall⟩ hstep
    have hheld : WithinLimits size policy held := hsound.1
    have hmove := follow_move h hvalid hheld hstep
    refine ⟨hmove.sound hsound, ?_⟩
    rw [hmove.all_eq, hall, enqueued_concat]

/-- Every record of a run met a buffer within its limits. -/
theorem before_within {policy : BufferPolicy} (hvalid : policy.Valid) {records : List ρ}
    {x : BufferStep ρ} (hx : x ∈ trace (follow size policy) [] records) :
    WithinLimits size policy x.before ∧ WithinLimits size policy x.after := by
  have hall : ∀ x ∈ trace (follow size policy) [] records,
      WithinLimits size policy x.before ∧ WithinLimits size policy x.after := by
    refine (history_invariant_start (s := [])
      (fun h held => WithinLimits size policy held ∧
        ∀ x ∈ h, WithinLimits size policy x.before ∧ WithinLimits size policy x.after)
      ⟨withinLimits_nil policy, nofun⟩ ?_ records).2
    intro h held r held' o ⟨hheld, hall⟩ hstep
    have hmove := follow_move [] hvalid hheld hstep
    have hheld' := (hmove.sound ⟨hheld, nofun⟩).1
    refine ⟨hheld', fun x hx => ?_⟩
    rcases List.mem_append.mp hx with hx | hx
    · exact hall x hx
    · rw [List.mem_singleton.mp hx]
      exact ⟨hheld, hheld'⟩
  exact hall x hx

/-- A buffer that follows the plan of an accepted policy keeps its limits, emits
batches that keep them and are not empty, and loses nothing it took in. -/
theorem buffer_exact (size : ρ → UInt64) {maxRecords maxBufferBytes maxRecordBytes : UInt64}
    {policy : BufferPolicy}
    (hpolicy : BufferPolicy.new maxRecords maxBufferBytes maxRecordBytes = .ok policy)
    (records : List ρ) :
    (∀ x ∈ trace (follow size policy) [] records, WithinLimits size policy x.after ∧
      (x.output = .ok .rejectOversize ↔ size x.event > policy.maxRecordBytes) ∧
      (∀ e, x.output = .error e → e = .counterOverflow ∧ x.after = x.before ∧
        policy.MayOverflow)) ∧
    (∀ batch ∈ batches (trace (follow size policy) [] records),
      batch ≠ [] ∧ WithinLimits size policy batch) ∧
    (batches (trace (follow size policy) [] records)).flatten ++
        final (follow size policy) [] records =
      enqueued (trace (follow size policy) [] records) ∧
    (trace (follow size policy) [] records).map Entry.event = records ∧
    (¬ policy.MayOverflow → enqueued (trace (follow size policy) [] records) =
      records.filter fun r => size r ≤ policy.maxRecordBytes) := by
  have hvalid := BufferPolicy.valid_of_new hpolicy
  obtain ⟨hsound, hall⟩ := account size hvalid records
  have hevents := map_event_trace (follow_total size policy) [] records
  refine ⟨fun x hx => ?_, hsound.2, hall, hevents, fun hroom => ?_⟩
  · obtain ⟨hbefore, hafter⟩ := before_within hvalid hx
    refine ⟨hafter, ?_⟩
    rcases follow_cases hvalid hbefore (step_of_mem_trace hx) with ⟨hbig, hheld, ho⟩ |
      ⟨hsize, hover, hheld, ho⟩ | ⟨hsize, _, _, ho⟩ | ⟨hsize, _, _, _, ho⟩
    · rw [ho]
      exact ⟨iff_of_true rfl hbig, nofun⟩
    · rw [ho]
      refine ⟨iff_of_false nofun (UInt64.not_lt.mpr hsize), fun e he => ?_⟩
      cases he
      exact ⟨rfl, hheld, hover⟩
    · rw [ho]
      exact ⟨iff_of_false nofun (UInt64.not_lt.mpr hsize), nofun⟩
    · rw [ho]
      exact ⟨iff_of_false nofun (UInt64.not_lt.mpr hsize), nofun⟩
  · have hagree : ∀ x ∈ trace (follow size policy) [] records,
        isEnqueued x = decide (size x.event ≤ policy.maxRecordBytes) := by
      intro x hx
      rcases follow_cases hvalid (before_within hvalid hx).1 (step_of_mem_trace hx) with
        ⟨hbig, _, ho⟩ | ⟨_, hover, _, _⟩ | ⟨hsize, _, _, ho⟩ | ⟨hsize, _, _, _, ho⟩
      · have hnot : ¬ size x.event ≤ policy.maxRecordBytes := UInt64.not_le.mpr hbig
        simp [isEnqueued, ho, hnot]
      · exact absurd hover hroom
      · simp [isEnqueued, ho, hsize]
      · simp [isEnqueued, ho, hsize]
    rw [enqueued, List.filter_congr hagree]
    nth_rewrite 2 [← hevents]
    rw [List.filter_map]
    rfl

/-- Two records fill a buffer, a third starts the next, and one too large is
turned away. -/
theorem buffer_exact_of_two :
    let policy : BufferPolicy := ⟨2, 10, 5⟩
    (batches (trace (follow id policy) [] [3, 4, 2, 9, 5])).flatten ++
        final (follow id policy) [] [3, 4, 2, 9, 5] =
      enqueued (trace (follow id policy) [] [3, 4, 2, 9, 5]) ∧
    batches (trace (follow id policy) [] [3, 4, 2, 9, 5]) = [[3, 4]] ∧
      final (follow id policy) [] [3, 4, 2, 9, 5] = [2, 5] :=
  have hpolicy : BufferPolicy.new 2 10 5 = .ok ⟨2, 10, 5⟩ := by decide
  ⟨(buffer_exact id hpolicy [3, 4, 2, 9, 5]).2.2.1, by decide, by decide⟩

end Buffer

end BuildLogs
end IndieWorker
