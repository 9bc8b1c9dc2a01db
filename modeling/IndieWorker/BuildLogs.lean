import IndieWorker.Lib.Overflow
import IndieWorker.Lib.Run

/-!
# Build-log admission

`LogCursor` of `src/build_logs.rs`: one record of one logical stream is admitted
when both its sequence and its offset are the ones the cursor expects.
-/

namespace IndieWorker
namespace BuildLogs

open Run

structure LogPosition where
  sequence : UInt64
  offsetBytes : UInt64
  deriving DecidableEq, Repr

inductive LogAdmission where
  | accepted (nextSequence nextOffsetBytes : UInt64)
  | duplicate (nextSequence nextOffsetBytes : UInt64)
  | gap (expectedSequence receivedSequence : UInt64)
  | offsetMismatch (expectedOffsetBytes receivedOffsetBytes : UInt64)
  deriving DecidableEq, Repr

inductive LogCursorError where
  | sequenceOverflow
  | offsetOverflow
  deriving DecidableEq, Repr

structure LogCursor where
  nextSequence : UInt64
  nextOffsetBytes : UInt64
  deriving DecidableEq, Repr

namespace LogCursor

def new : LogCursor := ⟨0, 0⟩

def fromExpected (nextSequence nextOffsetBytes : UInt64) : LogCursor :=
  ⟨nextSequence, nextOffsetBytes⟩

/-- Pure admission for one already-validated record in one logical stream. -/
def observe (c : LogCursor) (position : LogPosition) (bodyBytes : UInt64) :
    Except LogCursorError (LogCursor × LogAdmission) :=
  if position.sequence < c.nextSequence then
    .ok (c, .duplicate c.nextSequence c.nextOffsetBytes)
  else if position.sequence > c.nextSequence then
    .ok (c, .gap c.nextSequence position.sequence)
  else if position.offsetBytes ≠ c.nextOffsetBytes then
    .ok (c, .offsetMismatch c.nextOffsetBytes position.offsetBytes)
  else
    match checkedAdd c.nextSequence 1 with
    | none => .error .sequenceOverflow
    | some nextSequence =>
      match checkedAdd c.nextOffsetBytes bodyBytes with
      | none => .error .offsetOverflow
      | some nextOffsetBytes =>
        .ok (⟨nextSequence, nextOffsetBytes⟩, .accepted nextSequence nextOffsetBytes)

end LogCursor

/-! ## Deliveries -/

/-- One record as it is delivered. -/
structure Delivery where
  position : LogPosition
  bodyBytes : UInt64
  deriving DecidableEq, Repr

/-- The caller keeps the returned cursor, or the old one on an error. -/
def deliver (c : LogCursor) (d : Delivery) :
    Option (LogCursor × Except LogCursorError LogAdmission) :=
  match c.observe d.position d.bodyBytes with
  | .ok (next, admission) => some (next, .ok admission)
  | .error e => some (c, .error e)

abbrev Step := Entry LogCursor Delivery (Except LogCursorError LogAdmission)

def isAccepted (x : Step) : Bool :=
  match x.output with
  | .ok (.accepted _ _) => true
  | _ => false

/-- The records a history accepted, in order. -/
def acceptedRecords (h : List Step) : List Delivery := (h.filter isAccepted).map Entry.event

/-- The body bytes of a list of records. -/
def bytes (ds : List Delivery) : Nat := (ds.map fun d => d.bodyBytes.toNat).sum

theorem deliver_total (c : LogCursor) (d : Delivery) : (deliver c d).isSome := by
  unfold deliver
  split <;> rfl

/-- What one delivery can do: an exact match with room for it moves the cursor
past the record, and everything else leaves the cursor where it was. -/
theorem deliver_cases {c c' : LogCursor} {d : Delivery}
    {o : Except LogCursorError LogAdmission} (h : deliver c d = some (c', o)) :
    (isAccepted ⟨c, d, o, c'⟩ = true ∧ d.position.sequence = c.nextSequence ∧
      d.position.offsetBytes = c.nextOffsetBytes ∧
      c'.nextSequence.toNat = c.nextSequence.toNat + 1 ∧
      c'.nextOffsetBytes.toNat = c.nextOffsetBytes.toNat + d.bodyBytes.toNat) ∨
    (isAccepted ⟨c, d, o, c'⟩ = false ∧ c' = c) := by
  unfold deliver LogCursor.observe at h
  split at h
  · next next' admission hobs =>
    split at hobs
    · cases hobs
      cases h
      exact Or.inr ⟨rfl, rfl⟩
    · next hlt =>
      split at hobs
      · cases hobs
        cases h
        exact Or.inr ⟨rfl, rfl⟩
      · next hgt =>
        split at hobs
        · cases hobs
          cases h
          exact Or.inr ⟨rfl, rfl⟩
        · next hoff =>
          split at hobs
          · cases hobs
          · next ns hns =>
            split at hobs
            · cases hobs
            · next no hno =>
              cases hobs
              cases h
              refine Or.inl ⟨rfl, ?_, Decidable.not_not.mp hoff, ?_, ?_⟩
              · exact UInt64.le_antisymm (UInt64.not_lt.mp hgt) (UInt64.not_lt.mp hlt)
              · exact checkedAdd_eq_some_iff.mp hns
              · exact checkedAdd_eq_some_iff.mp hno
  · cases h
    exact Or.inr ⟨rfl, rfl⟩

/-- An exact match whose counters fit is accepted. -/
theorem deliver_of_match {c : LogCursor} {d : Delivery}
    (hseq : d.position.sequence = c.nextSequence)
    (hoff : d.position.offsetBytes = c.nextOffsetBytes)
    (hs : c.nextSequence.toNat + 1 < 2 ^ 64)
    (ho : c.nextOffsetBytes.toNat + d.bodyBytes.toNat < 2 ^ 64) :
    ∃ c' o, deliver c d = some (c', o) ∧ isAccepted ⟨c, d, o, c'⟩ = true := by
  have hns : checkedAdd c.nextSequence 1 = some (c.nextSequence + 1) := if_pos hs
  have hno : checkedAdd c.nextOffsetBytes d.bodyBytes =
      some (c.nextOffsetBytes + d.bodyBytes) := if_pos ho
  refine ⟨⟨c.nextSequence + 1, c.nextOffsetBytes + d.bodyBytes⟩,
    .ok (.accepted (c.nextSequence + 1) (c.nextOffsetBytes + d.bodyBytes)), ?_, rfl⟩
  unfold deliver LogCursor.observe
  rw [hseq, hoff, if_neg (UInt64.lt_irrefl _), if_neg (UInt64.lt_irrefl _),
    if_neg (not_not_intro rfl), hns, hno]

theorem acceptedRecords_append (h : List Step) (x : Step) :
    acceptedRecords (h ++ [x]) =
      acceptedRecords h ++ if isAccepted x then [x.event] else [] := by
  rw [acceptedRecords, List.filter_append, List.map_append]
  by_cases hx : isAccepted x <;> simp [acceptedRecords, hx]

theorem acceptedRecords_cons (x : Step) (h : List Step) :
    acceptedRecords (x :: h) =
      (if isAccepted x then [x.event] else []) ++ acceptedRecords h := by
  by_cases hx : isAccepted x <;> simp [acceptedRecords, hx]

@[simp] theorem bytes_append (ds es : List Delivery) : bytes (ds ++ es) = bytes ds + bytes es := by
  rw [bytes, List.map_append, List.sum_append]
  rfl

@[simp] theorem bytes_singleton (d : Delivery) : bytes [d] = d.bodyBytes.toNat := by
  simp [bytes]

/-! ## Exactly once -/

/-- What a history says of the cursor it started from and the one it reached. -/
structure Exact (start : LogCursor) (h : List Step) (c : LogCursor) : Prop where
  sequences : (acceptedRecords h).map (fun d => d.position.sequence.toNat) =
    List.range' start.nextSequence.toNat (acceptedRecords h).length
  offsets : ∀ i (hi : i < (acceptedRecords h).length),
    ((acceptedRecords h)[i]).position.offsetBytes.toNat =
      start.nextOffsetBytes.toNat + bytes ((acceptedRecords h).take i)
  sequence : c.nextSequence.toNat = start.nextSequence.toNat + (acceptedRecords h).length
  offset : c.nextOffsetBytes.toNat = start.nextOffsetBytes.toNat + bytes (acceptedRecords h)
  moves : ∀ x ∈ h, x.after ≠ x.before →
    x.event.position.sequence = x.before.nextSequence ∧
      x.event.position.offsetBytes = x.before.nextOffsetBytes

theorem exact_start (start : LogCursor) : Exact start [] start where
  sequences := rfl
  offsets := fun i hi => absurd hi (Nat.not_lt_zero i)
  sequence := rfl
  offset := rfl
  moves := by simp

theorem exact_step {start c c' : LogCursor} {h : List Step} {d : Delivery}
    {o : Except LogCursorError LogAdmission} (hex : Exact start h c)
    (hd : deliver c d = some (c', o)) : Exact start (h ++ [⟨c, d, o, c'⟩]) c' := by
  rcases deliver_cases hd with ⟨hacc, hseq, hoff, hs, ho⟩ | ⟨hacc, rfl⟩
  · have happ : acceptedRecords (h ++ [⟨c, d, o, c'⟩]) = acceptedRecords h ++ [d] := by
      rw [acceptedRecords_append, hacc]
      rfl
    have hseqs := hex.sequences
    have hnext := hex.sequence
    have hnextOff := hex.offset
    refine ⟨?_, fun i hi => ?_, ?_, ?_, fun x hx hne => ?_⟩
    · have hlast : d.position.sequence.toNat =
          start.nextSequence.toNat + 1 * (acceptedRecords h).length := by
        rw [hseq, hnext, Nat.one_mul]
      rw [happ, List.map_append, hseqs, List.length_append, List.length_singleton,
        List.range'_concat, ← hlast]
      rfl
    · simp only [happ, List.length_append, List.length_singleton] at hi ⊢
      by_cases hlast : i = (acceptedRecords h).length
      · subst hlast
        rw [List.getElem_concat_length rfl, List.take_left', hoff, hnextOff]
        rfl
      · have hlt : i < (acceptedRecords h).length := by omega
        rw [List.getElem_append_left hlt, List.take_append_of_le_length (Nat.le_of_lt hlt)]
        exact hex.offsets i hlt
    · rw [happ, List.length_append, List.length_singleton]
      omega
    · rw [happ, bytes_append, bytes_singleton]
      omega
    · rcases List.mem_append.mp hx with hx | hx
      · exact hex.moves x hx hne
      · rw [List.mem_singleton.mp hx]
        exact ⟨hseq, hoff⟩
  · have happ : acceptedRecords (h ++ [⟨c', d, o, c'⟩]) = acceptedRecords h := by
      rw [acceptedRecords_append, hacc, if_neg Bool.false_ne_true, List.append_nil]
    obtain ⟨hseqs, hoffs, hnext, hnextOff, hmoves⟩ := hex
    refine ⟨happ ▸ hseqs, happ ▸ hoffs, happ ▸ hnext, happ ▸ hnextOff, fun x hx hne => ?_⟩
    rcases List.mem_append.mp hx with hx | hx
    · exact hmoves x hx hne
    · rw [List.mem_singleton.mp hx] at hne
      exact absurd rfl hne

def history (c : LogCursor) (ds : List Delivery) : List Step := trace deliver c ds

def after (c : LogCursor) (ds : List Delivery) : LogCursor := final deliver c ds

theorem exact_after (start : LogCursor) (ds : List Delivery) :
    Exact start (history start ds) (after start ds) :=
  history_invariant_start (Exact start) (exact_start start)
    (fun _ _ _ _ _ hex hd => exact_step hex hd) ds

/-! ## One consistent log -/

/-- The bodies of one log, whose counters fit. -/
structure Log where
  bodies : List UInt64
  count_lt : bodies.length < 2 ^ 64
  bytes_lt : (bodies.map UInt64.toNat).sum < 2 ^ 64

namespace Log

variable (log : Log)

/-- The bytes of the log before record `i`. -/
def offset (i : Nat) : Nat := ((log.bodies.take i).map UInt64.toNat).sum

/-- Record `i` has sequence `i` and starts where the bytes before it end. -/
def records : List Delivery :=
  log.bodies.mapIdx fun i body => ⟨⟨UInt64.ofNat i, UInt64.ofNat (log.offset i)⟩, body⟩

/-- The cursor that expects record `k`. -/
def cursorAt (k : Nat) : LogCursor :=
  .fromExpected (UInt64.ofNat k) (UInt64.ofNat (log.offset k))

@[simp] theorem records_length : log.records.length = log.bodies.length := List.length_mapIdx

theorem offset_succ {i : Nat} (hi : i < log.bodies.length) :
    log.offset (i + 1) = log.offset i + log.bodies[i].toNat := by
  rw [offset, offset, List.take_add_one, List.getElem?_eq_getElem hi, List.map_append,
    List.sum_append]
  simp

theorem offset_lt (i : Nat) : log.offset i < 2 ^ 64 := by
  have hsplit := congrArg (fun l => (l.map UInt64.toNat).sum) (log.bodies.take_append_drop i)
  simp only [List.map_append, List.sum_append] at hsplit
  have := log.bytes_lt
  rw [offset]
  omega

theorem records_getElem? {i : Nat} (hi : i < log.bodies.length) :
    log.records[i]? =
      some ⟨⟨UInt64.ofNat i, UInt64.ofNat (log.offset i)⟩, log.bodies[i]⟩ := by
  rw [records, List.getElem?_mapIdx, List.getElem?_eq_getElem hi]
  rfl

theorem records_drop {i : Nat} {d : Delivery} (hd : log.records[i]? = some d) :
    log.records.drop i = d :: log.records.drop (i + 1) := by
  obtain ⟨hi, rfl⟩ := List.getElem?_eq_some_iff.mp hd
  exact List.drop_eq_getElem_cons hi

/-- The cursor stands at record `k`. -/
structure At (k : Nat) (c : LogCursor) : Prop where
  le : k ≤ log.bodies.length
  sequence : c.nextSequence.toNat = k
  offset : c.nextOffsetBytes.toNat = log.offset k

theorem at_cursorAt {k : Nat} (hk : k ≤ log.bodies.length) : log.At k (log.cursorAt k) where
  le := hk
  sequence := UInt64.toNat_ofNat_of_lt (Nat.lt_of_le_of_lt hk log.count_lt)
  offset := UInt64.toNat_ofNat_of_lt (log.offset_lt k)

/-- A record of the log is accepted exactly where the cursor stands at it. -/
theorem deliver_record {i j : Nat} {c : LogCursor} {d : Delivery} (hc : log.At j c)
    (hd : log.records[i]? = some d) :
    ∃ c' o, deliver c d = some (c', o) ∧
      ((i = j ∧ isAccepted ⟨c, d, o, c'⟩ = true ∧ log.At (j + 1) c') ∨
        (i ≠ j ∧ isAccepted ⟨c, d, o, c'⟩ = false ∧ c' = c)) := by
  have hi : i < log.bodies.length := by
    have := (List.getElem?_eq_some_iff.mp hd).1
    rwa [records_length] at this
  rw [log.records_getElem? hi] at hd
  cases hd
  have hcount := log.count_lt
  have hseq : (UInt64.ofNat i).toNat = i := UInt64.toNat_ofNat_of_lt (hi.trans hcount)
  have hoff : (UInt64.ofNat (log.offset i)).toNat = log.offset i :=
    UInt64.toNat_ofNat_of_lt (log.offset_lt i)
  have hsucc := log.offset_succ hi
  obtain ⟨⟨c', o⟩, hdel⟩ := Option.isSome_iff_exists.mp (deliver_total c
    ⟨⟨UInt64.ofNat i, UInt64.ofNat (log.offset i)⟩, log.bodies[i]⟩)
  refine ⟨c', o, hdel, ?_⟩
  rcases deliver_cases hdel with ⟨hacc, hs, -, hns, hno⟩ | ⟨hacc, hsame⟩
  · have hij : i = j := by rw [← hc.sequence, ← hs, hseq]
    subst hij
    refine Or.inl ⟨rfl, hacc, hi, ?_, ?_⟩
    · rw [hns, hc.sequence]
    · rw [hno, hc.offset, hsucc]
  · refine Or.inr ⟨fun hij => ?_, hacc, hsame⟩
    subst hij
    have hlt := log.offset_lt (i + 1)
    obtain ⟨c₂, o₂, hdel₂, hacc₂⟩ := deliver_of_match
      (d := ⟨⟨UInt64.ofNat i, UInt64.ofNat (log.offset i)⟩, log.bodies[i]⟩)
      (UInt64.toNat_inj.mp (hseq.trans hc.sequence.symm))
      (UInt64.toNat_inj.mp (hoff.trans hc.offset.symm))
      (by rw [hc.sequence]; omega)
      (by rw [hc.offset]; show log.offset i + log.bodies[i].toNat < 2 ^ 64; omega)
    rw [hdel] at hdel₂
    cases hdel₂
    rw [hacc] at hacc₂
    cases hacc₂

/-- A redelivery from before the cursor accepts what stands from the cursor on. -/
theorem redelivery {m i j : Nat} {c : LogCursor} (hm : i + m = log.bodies.length) (hij : i ≤ j)
    (hc : log.At j c) :
    acceptedRecords (history c (log.records.drop i)) = log.records.drop j := by
  induction m generalizing i j c with
  | zero =>
    have hle := hc.le
    have hnil : ∀ l, log.bodies.length ≤ l → log.records.drop l = [] := fun l hl =>
      List.drop_of_length_le (log.records_length ▸ hl)
    rw [hnil i (by omega), hnil j (by omega)]
    rfl
  | succ m ih =>
    have hd := log.records_getElem? (show i < log.bodies.length by omega)
    obtain ⟨c', o, hdel, hcase⟩ := log.deliver_record hc hd
    rw [log.records_drop hd, history, trace_cons hdel, acceptedRecords_cons]
    rcases hcase with ⟨rfl, hacc, hc'⟩ | ⟨hne, hacc, rfl⟩
    · rw [hacc, log.records_drop hd, if_pos rfl, List.singleton_append]
      exact congrArg _ (ih (by omega) (Nat.le_refl _) hc')
    · rw [hacc, if_neg Bool.false_ne_true, List.nil_append]
      exact ih (by omega) (by omega) hc

/-- Deliveries from the log leave the cursor at a record, and have accepted what
stands before it. -/
theorem deliveries {k : Nat} (hk : k ≤ log.bodies.length) {ds : List Delivery}
    (hds : ∀ d ∈ ds, d ∈ log.records) :
    ∃ j, log.At j (after (log.cursorAt k) ds) ∧
      acceptedRecords (history (log.cursorAt k) ds) ++ log.records.drop j =
        log.records.drop k := by
  have hevents : ∀ x ∈ history (log.cursorAt k) ds, x.event ∈ log.records := by
    intro x hx
    refine hds _ ?_
    rw [← map_event_trace deliver_total (log.cursorAt k) ds]
    exact List.mem_map_of_mem hx
  revert hevents
  refine history_invariant_start
    (fun h c => (∀ x ∈ h, x.event ∈ log.records) →
      ∃ j, log.At j c ∧ acceptedRecords h ++ log.records.drop j = log.records.drop k)
    (fun _ => ⟨k, log.at_cursorAt hk, rfl⟩) ?_ ds
  intro h c d c' o ih hdel hmem
  obtain ⟨j, hj, hacc⟩ := ih fun x hx => hmem x (List.mem_append_left _ hx)
  obtain ⟨i, hi⟩ := List.mem_iff_getElem?.mp
    (hmem _ (List.mem_append_right _ (List.mem_singleton_self _)))
  obtain ⟨c₂, o₂, hdel₂, hcase⟩ := log.deliver_record hj hi
  rw [hdel] at hdel₂
  cases hdel₂
  rw [acceptedRecords_append]
  rcases hcase with ⟨rfl, hok, hj'⟩ | ⟨-, hno, rfl⟩
  · refine ⟨i + 1, hj', ?_⟩
    rw [hok, if_pos rfl, List.append_assoc, List.singleton_append, ← log.records_drop hi]
    exact hacc
  · refine ⟨j, hj, ?_⟩
    rw [hno, if_neg Bool.false_ne_true, List.append_nil]
    exact hacc

theorem records_nodup : log.records.Nodup := by
  rw [List.nodup_iff_getElem?_ne_getElem?]
  intro i j hij hj heq
  rw [records_length] at hj
  rw [log.records_getElem? (by omega), log.records_getElem? hj] at heq
  have hseq := congrArg (fun d => (d.map fun d => d.position.sequence.toNat)) heq
  have hcount := log.count_lt
  simp only [Option.map_some, UInt64.toNat_ofNat', Option.some.injEq] at hseq
  rw [Nat.mod_eq_of_lt (by omega), Nat.mod_eq_of_lt (by omega)] at hseq
  omega

end Log

/-- Admission is exactly once and byte exact.  From any cursor, over any
deliveries, the accepted records are numbered and placed one after the other
from the cursor on, and only an exact match moves it.  For the records of one
log, after any losses, duplicates and reordering, one redelivery in order
accepts precisely the records not yet accepted. -/
theorem admission_exactly_once :
    (∀ (start : LogCursor) (ds : List Delivery),
      Exact start (history start ds) (after start ds)) ∧
    ∀ (log : Log) (k : Nat), k ≤ log.bodies.length →
      ∀ ds : List Delivery, (∀ d ∈ ds, d ∈ log.records) →
        acceptedRecords (history (after (log.cursorAt k) ds) log.records) =
          (log.records.drop k).filter
            (fun d => d ∉ acceptedRecords (history (log.cursorAt k) ds)) := by
  refine ⟨exact_after, fun log k hk ds hds => ?_⟩
  obtain ⟨j, hj, hsplit⟩ := log.deliveries hk hds
  have hnodup : (log.records.drop k).Nodup := log.records_nodup.sublist (List.drop_sublist _ _)
  have hall := log.redelivery (Nat.zero_add _) (Nat.zero_le j) hj
  rw [List.drop_zero] at hall
  rw [← hsplit] at hnodup ⊢
  have hdisjoint := (List.nodup_append.mp hnodup).2.2
  rw [hall, List.filter_append, List.filter_eq_nil_iff.mpr, List.nil_append,
    List.filter_eq_self.mpr]
  · intro d hd
    simpa using fun hmem => hdisjoint d hmem d hd rfl
  · intro d hd
    simpa using hd

theorem redelivery_after_reordering :
    acceptedRecords
        (history (after (Log.cursorAt ⟨[3, 4], by decide, by decide⟩ 0)
            [⟨⟨1, 3⟩, 4⟩, ⟨⟨0, 0⟩, 3⟩])
          (Log.records ⟨[3, 4], by decide, by decide⟩)) = [⟨⟨1, 3⟩, 4⟩] :=
  (admission_exactly_once.2 ⟨[3, 4], by decide, by decide⟩ 0 (by decide)
    [⟨⟨1, 3⟩, 4⟩, ⟨⟨0, 0⟩, 3⟩] (by decide)).trans (by decide)

end BuildLogs
end IndieWorker
