import IndieWorker.BuildLogs
import IndieWorker.Lib.Product

/-!
# Many build logs at once

A caller of `observe` keeps a separate cursor for each identity of a logical stream, and
the records of all the streams arrive mixed.
-/

namespace IndieWorker
namespace BuildLogs

open Run

/-! ## One log, delivered whole -/

theorem acceptedRecords_history_append (c : LogCursor) (ds es : List Delivery) :
    acceptedRecords (history c (ds ++ es)) =
      acceptedRecords (history c ds) ++ acceptedRecords (history (after c ds) es) := by
  rw [history, trace_append deliver_total, acceptedRecords, List.filter_append, List.map_append]
  rfl

theorem Log.bytes_records (log : Log) : bytes log.records = log.offset log.bodies.length := by
  have hbodies : log.records.map Delivery.bodyBytes = log.bodies := by
    refine List.ext_getElem? fun i => ?_
    rcases Nat.lt_or_ge i log.bodies.length with hlt | hge
    · rw [List.getElem?_map, log.records_getElem? hlt, List.getElem?_eq_getElem hlt]
      rfl
    · rw [List.getElem?_eq_none hge, List.getElem?_eq_none]
      rw [List.length_map, log.records_length]
      exact hge
  have hsizes := congrArg (List.map UInt64.toNat) hbodies
  rw [List.map_map] at hsizes
  rw [bytes, Log.offset, List.take_length, ← hsizes]
  rfl

/-- A log that is delivered in order, whatever of it was delivered before, has been
accepted once and whole. -/
theorem Log.accepted_whole (log : Log) {ds : List Delivery} (hds : ∀ d ∈ ds, d ∈ log.records) :
    acceptedRecords (history .new (ds ++ log.records)) = log.records ∧
      log.At log.bodies.length (after .new (ds ++ log.records)) := by
  have hnew : log.cursorAt 0 = .new := rfl
  obtain ⟨j, hj, hsplit⟩ := log.deliveries (Nat.zero_le _) hds
  have hrest := log.redelivery (Nat.zero_add _) (Nat.zero_le j) hj
  rw [hnew, List.drop_zero] at hsplit hrest
  have hwhole : acceptedRecords (history .new (ds ++ log.records)) = log.records := by
    rw [acceptedRecords_history_append, hrest, hsplit]
  have hexact := exact_after .new (ds ++ log.records)
  have hsequence := hexact.sequence
  have hoffset := hexact.offset
  rw [hwhole, log.records_length] at hsequence
  rw [hwhole, log.bytes_records] at hoffset
  exact ⟨hwhole, Nat.le_refl _, hsequence.trans (Nat.zero_add _), hoffset.trans (Nat.zero_add _)⟩

/-! ## All the streams -/

variable {κ : Type} [DecidableEq κ]

/-- The records of one stream that a caller with a cursor for each stream accepted. -/
def collected (cursors : κ → LogCursor) (ds : List (κ × Delivery)) (i : κ) : List Delivery :=
  acceptedRecords ((trace (among deliver) cursors ds).filterMap (entryOf i))

/-- The cursors such a caller then has. -/
def cursorsAfter (cursors : κ → LogCursor) (ds : List (κ × Delivery)) : κ → LogCursor :=
  final (among deliver) cursors ds

theorem collected_eq (cursors : κ → LogCursor) (ds : List (κ × Delivery)) (i : κ) :
    collected cursors ds i = acceptedRecords (history (cursors i) (eventsOf i ds)) := by
  rw [collected, trace_among deliver_total]
  rfl

/-- However the streams are mixed, each is admitted as if it were alone.  After any losses,
repetitions and reordering of its records, one delivery of them in order leaves its log
accepted once, in order and whole, and its cursor at the end, whatever is delivered of
the other streams and in between. -/
theorem streams_admitted_apart (cursors : κ → LogCursor) (i : κ) :
    (∀ ds, Exact (cursors i) ((trace (among deliver) cursors ds).filterMap (entryOf i))
      (cursorsAfter cursors ds i)) ∧
    ∀ (log : Log) (ds redelivered : List (κ × Delivery)), cursors i = .new →
      (∀ x ∈ ds, x.1 = i → x.2 ∈ log.records) → eventsOf i redelivered = log.records →
        collected cursors (ds ++ redelivered) i = log.records ∧
          log.At log.bodies.length (cursorsAfter cursors (ds ++ redelivered) i) := by
  refine ⟨fun ds => ?_, fun log ds redelivered hnew hds hall => ?_⟩
  · rw [trace_among deliver_total, cursorsAfter, final_among deliver_total]
    exact exact_after (cursors i) (eventsOf i ds)
  · have hown : ∀ d ∈ eventsOf i ds, d ∈ log.records := fun d hd => hds _ (mem_eventsOf.mp hd) rfl
    rw [collected_eq, cursorsAfter, final_among deliver_total, eventsOf_append, hall, hnew]
    exact log.accepted_whole hown

/-- Two streams, mixed; the second record of the first stream comes early. -/
theorem streams_admitted_apart_mixed :
    collected (fun _ : Bool => LogCursor.new) ([(true, ⟨⟨1, 3⟩, 4⟩), (false, ⟨⟨0, 0⟩, 9⟩)] ++
      [(true, ⟨⟨0, 0⟩, 3⟩), (false, ⟨⟨1, 9⟩, 1⟩), (true, ⟨⟨1, 3⟩, 4⟩)]) true =
        [⟨⟨0, 0⟩, 3⟩, ⟨⟨1, 3⟩, 4⟩] :=
  ((streams_admitted_apart (fun _ : Bool => LogCursor.new) true).2
    ⟨[3, 4], by decide, by decide⟩ _ _ rfl (by decide) (by decide)).1

end BuildLogs
end IndieWorker
