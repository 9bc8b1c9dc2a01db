import IndieWorker.Lib.Decision
import IndieWorker.Protocol.Tcp

/-!
# Schedules of a TCP connection

Chunks are fed and frames are asked for in any order.  What comes out is what
the one-shot parse of the bytes finds, and an error closes the connection.
-/

namespace IndieWorker
namespace Protocol

open BigEndian Decision Polling Run

namespace Decoder

/-- What a caller does with the decoder, and what it answers. -/
def call (d : Decoder) : Call UInt8 → Option (Decoder × Answer Bytes ProtocolError)
  | .feed chunk => some (d.feed chunk, .fed)
  | .poll => some (d.nextFrame.2, .polled d.nextFrame.1)

def history (limit : Nat) (calls : List (Call UInt8)) :
    List (Entry Decoder (Call UInt8) (Answer Bytes ProtocolError)) :=
  trace call (withLimit limit) calls

/-- The decoder after a schedule. -/
def after (limit : Nat) (calls : List (Call UInt8)) : Decoder := final call (withLimit limit) calls

def view (d : Decoder) : State UInt8 := ⟨d.buffer, d.poisoned⟩

theorem nextFrame_poisoned {d : Decoder} (h : d.poisoned = true) : d.nextFrame = (.ok none, d) :=
  if_pos (Or.inl h)

/-- `nextFrame` acts on the front of its buffer. -/
theorem nextFrame_live {d : Decoder} (h : d.poisoned = false) :
    d.nextFrame = match front d.limit d.buffer with
      | .more => (.ok none, d)
      | .item p n => (.ok (some p), { d with buffer := d.buffer.drop n })
      | .fail e => (.error e, { d with poisoned := true }) := by
  unfold nextFrame front
  by_cases hheader : d.buffer.length < HEADER_BYTES
  · rw [if_pos (Or.inr hheader), if_pos hheader]
  · rw [if_neg (by simp [h, hheader]), if_neg hheader]
    show (if declared d.buffer = 0 then _ else _) = _
    by_cases hzero : declared d.buffer = 0
    · rw [if_pos hzero, if_pos hzero]
    · rw [if_neg hzero, if_neg hzero]
      show (if declared d.buffer > d.limit then _ else _) = _
      by_cases hlimit : declared d.buffer > d.limit
      · rw [if_pos hlimit, if_pos hlimit]
        rfl
      · rw [if_neg hlimit, if_neg hlimit]
        show (if d.buffer.length < HEADER_BYTES + declared d.buffer then _ else _) = _
        by_cases hwhole : d.buffer.length < HEADER_BYTES + declared d.buffer
        · rw [if_pos hwhole, if_pos hwhole]
        · rw [if_neg hwhole, if_neg hwhole]
          rfl

/-- The decoder is the polled decoder of its framing. -/
theorem refines (limit : Nat) :
    Refines (framing limit) call (fun d => d.limit = limit) view := by
  refine ⟨fun d c hlimit => ?_⟩
  cases c with
  | feed chunk =>
    refine ⟨d.feed chunk, rfl, ?_, ?_⟩
    · unfold feed
      split
      · exact hlimit
      · exact hlimit
    · rcases hpoisoned : d.poisoned with _ | _
      · simp [Polling.next, view, feed, hpoisoned]
      · simp [Polling.next, view, feed, hpoisoned]
  | poll =>
    refine ⟨d.nextFrame.2, ?_⟩
    rcases hpoisoned : d.poisoned with _ | _
    · subst hlimit
      rcases hfront : front d.limit d.buffer with _ | ⟨p, n⟩ | e
      · simp [Polling.next, call, view, framing, nextFrame_live hpoisoned, hfront, hpoisoned]
      · simp [Polling.next, call, view, framing, nextFrame_live hpoisoned, hfront, hpoisoned]
      · simp [Polling.next, call, view, framing, nextFrame_live hpoisoned, hfront, hpoisoned]
    · simp [Polling.next, call, view, nextFrame_poisoned hpoisoned, hpoisoned, hlimit]

theorem call_total (d : Decoder) (c : Call UInt8) : (d.call c).isSome := by
  cases c <;> rfl

theorem drained_iff (d : Decoder) :
    Drained call d ↔ ∀ p, d.nextFrame.1 ≠ .ok (some p) := by
  unfold Drained call
  constructor
  · intro h p hp
    exact h d.nextFrame.2 p (by rw [hp])
  · intro h t p hp
    simp only [Option.some.injEq, Prod.mk.injEq, Answer.polled.injEq] at hp
    exact h p hp.2

end Decoder

/-! ## Frames written back to back -/

theorem encodeWithLimit_eq_ok_iff {payload frame : Bytes} {limit : Nat} :
    encodeWithLimit payload limit = .ok frame ↔
      payload ≠ [] ∧ payload.length ≤ limit ∧ payload.length < 2 ^ 32 ∧
        frame = beBytes HEADER_BYTES payload.length ++ payload := by
  unfold encodeWithLimit
  rw [refuse_eq_ok_iff, refuse_eq_ok_iff, not_lt]
  by_cases hwidth : payload.length < 2 ^ 32
  · rw [if_pos hwidth, Except.ok.injEq]
    exact and_congr_right fun _ => and_congr_right fun _ =>
      ⟨fun h => ⟨hwidth, h.symm⟩, fun h => h.2.symm⟩
  · rw [if_neg hwidth]
    refine and_congr_right fun _ => and_congr_right fun _ => ?_
    exact iff_of_false (fun h => by cases h) fun h => hwidth h.1

/-- A stream that may still become a frame is shorter than the largest one. -/
theorem front_more {limit : Nat} {b : Bytes} (h : front limit b = .more) :
    b.length < HEADER_BYTES + limit := by
  unfold front at h
  split at h
  · omega
  · split at h
    · cases h
    · split at h
      · cases h
      · split at h
        · omega
        · cases h

/-- The front of a stream that begins with an encoding is the payload. -/
theorem front_encode {payload frame : Bytes} {limit : Nat}
    (h : encodeWithLimit payload limit = .ok frame) (x : Bytes) :
    front limit (frame ++ x) = .item payload frame.length := by
  obtain ⟨hne, hlimit, hwidth, rfl⟩ := encodeWithLimit_eq_ok_iff.mp h
  have hheader : (beBytes HEADER_BYTES payload.length).length = HEADER_BYTES := beBytes_length _ _
  have hpos : 0 < payload.length := List.length_pos_iff.mpr hne
  have hdeclared : declared (beBytes HEADER_BYTES payload.length ++ payload ++ x) =
      payload.length := by
    rw [declared, List.append_assoc]
    nth_rewrite 1 [← hheader]
    rw [List.take_left, beValue_beBytes hwidth]
  have hframe : (beBytes HEADER_BYTES payload.length ++ payload).length =
      HEADER_BYTES + payload.length := by
    rw [List.length_append, hheader]
  unfold front
  rw [hdeclared, if_neg (by rw [List.length_append, hframe]; omega), if_neg (by omega),
    if_neg (by omega), if_neg (by rw [List.length_append, hframe]; omega), ← hframe,
    List.take_left, List.drop_left' hheader]

theorem cuts_of_encode {limit : Nat} {payloads frames : List Bytes}
    (h : payloads.mapM (encodeWithLimit · limit) = .ok frames) :
    (framing limit).Cuts frames.flatten payloads [] := by
  induction payloads generalizing frames with
  | nil =>
    cases h
    exact .nil []
  | cons payload payloads ih =>
    rw [List.mapM_cons, bind_eq_ok_iff] at h
    obtain ⟨frame, hframe, h⟩ := h
    rw [bind_eq_ok_iff] at h
    obtain ⟨rest, hrest, hframes⟩ := h
    cases hframes
    rw [List.flatten_cons]
    refine .cons (front_encode hframe rest.flatten) ?_
    rw [List.drop_left]
    exact ih hrest

/-- The payloads handed out and the error raised are those of the one-shot
parse, however the bytes were cut and whenever the decoder was asked.  The error
comes once and nothing follows it. -/
theorem Decoder.any_schedule_parses (limit : Nat) :
    (∀ calls later, delivered (history limit calls) <+: (parse limit (fed calls ++ later)).1) ∧
    (∀ calls, (∀ p, (after limit calls).nextFrame.1 ≠ .ok (some p)) →
      delivered (history limit calls) = (parse limit (fed calls)).1 ∧
        raised (history limit (calls ++ [.poll])) = (parse limit (fed calls)).2) ∧
    (∀ calls, ∃ k, ∀ p,
      (after limit (calls ++ List.replicate k .poll)).nextFrame.1 ≠ .ok (some p)) ∧
    (∀ payloads frames calls, payloads.mapM (encodeWithLimit · limit) = .ok frames →
      fed calls = frames.flatten → (∀ p, (after limit calls).nextFrame.1 ≠ .ok (some p)) →
        delivered (history limit calls) = payloads ∧ raised (history limit calls) = none ∧
          (after limit calls).buffered = 0) ∧
    (∀ calls, (history limit calls).Pairwise fun x y => ∀ e, x.output = .polled (.error e) →
      y.event = .poll → y.output = .polled (.ok none)) ∧
    (∀ calls, ∀ x ∈ history limit calls, x.output = .polled (.ok none) →
      x.after.poisoned = false → x.after.buffered < HEADER_BYTES + limit) := by
  have hF := refines limit
  have hstart : view (withLimit limit) = ⟨[], false⟩ := rfl
  refine ⟨ delivered_prefix hF call_total rfl hstart, fun calls hstop => ?_, fun calls => ?_,
    fun payloads frames calls hencode hfed hstop => ?_, quiet_after_error hF call_total rfl hstart,
    fun calls x hx hout hlive => ?_⟩
  · exact delivered_of_drained hF call_total rfl hstart calls ((drained_iff _).mpr hstop)
  · obtain ⟨k, hk⟩ := polls_drain hF call_total rfl hstart calls
    exact ⟨k, (drained_iff _).mp hk⟩
  · obtain ⟨hall, hraised, hbuffer⟩ := delivered_of_cuts hF call_total rfl hstart rfl
      (hfed ▸ cuts_of_encode hencode) ((drained_iff _).mpr hstop)
    exact ⟨hall, hraised, congrArg List.length hbuffer⟩
  · exact front_more (front_of_waiting hF rfl hx hout hlive)

end Protocol
end IndieWorker
