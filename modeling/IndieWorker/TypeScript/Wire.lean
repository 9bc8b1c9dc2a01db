import IndieWorker.Lib.Lockstep
import IndieWorker.TypeScript.Frames

/-!
# Frames between the two languages

`encodeFrame` of `typescript/src/frames.mjs` beside `encode_with_limit` of
`src/protocol/tcp.rs`.  Frames of either cross to a decoder of either.
-/

namespace IndieWorker
namespace TypeScript

open BigEndian Decision Polling Protocol Run

/-- Frame one payload.  `setUint32` keeps the low four bytes of the length. -/
def encodeFrame (payload : Bytes) (limit : Nat) : Except Thrown Bytes :=
  if payload.length = 0 then .error (.protocolError "empty-frame" "frame is empty")
  else if payload.length > limit then
    .error (.protocolError "frame-too-large"
      ("frame declares " ++ toString payload.length ++ " bytes, limit is " ++ toString limit))
  else .ok (beBytes HEADER_BYTES payload.length ++ payload)

/-- The two encoders write the same bytes and give the same reasons, but for a payload
within the limit whose length has no header. -/
theorem encodeFrame_eq_iff (payload : Bytes) (limit : Nat) :
    encodeFrame payload limit = (encodeWithLimit payload limit).mapError thrown ↔
      (payload.length ≤ limit → payload.length < 2 ^ 32) := by
  unfold encodeFrame encodeWithLimit
  by_cases hempty : payload = []
  · rw [if_pos hempty, if_pos (by rw [hempty]; rfl)]
    refine iff_of_true rfl fun _ => ?_
    rw [hempty]
    exact Nat.two_pow_pos 32
  · rw [if_neg hempty, if_neg fun h => hempty (List.length_eq_zero_iff.mp h)]
    by_cases hlimit : payload.length > limit
    · rw [if_pos hlimit, if_pos hlimit]
      exact iff_of_true rfl fun hle => absurd hlimit (Nat.not_lt.mpr hle)
    · rw [if_neg hlimit, if_neg hlimit]
      by_cases hwidth : payload.length < 2 ^ 32
      · rw [if_pos hwidth]
        exact iff_of_true rfl fun _ => hwidth
      · rw [if_neg hwidth]
        refine iff_of_false (fun h => ?_) fun h => hwidth (h (Nat.not_lt.mp hlimit))
        cases h

/-! ## Polled for payloads -/

/-- The decoder as a caller polls it for payloads. -/
def FrameDecoder.call (d : FrameDecoder) : Call UInt8 → Option (FrameDecoder × Answer Bytes Thrown)
  | .feed chunk => some (d.feed chunk, .fed)
  | .poll => some (d.next.2, .polled d.next.1)

def retold : Answer Bytes ProtocolError → Answer Bytes Thrown
  | .fed => .fed
  | .polled r => .polled (r.mapError thrown)

theorem feed_twin (d : Decoder) (chunk : Bytes) : (twin d).feed chunk = twin (d.feed chunk) := by
  unfold FrameDecoder.feed Decoder.feed
  rcases hpoisoned : d.poisoned with _ | _
  · simp [twin, hpoisoned]
  · simp [twin, hpoisoned]

/-- The Rust decoder, read as the TypeScript one. -/
def polled : Lockstep Decoder.call FrameDecoder.call where
  state := twin
  event := id
  answer _ := retold
  agrees d c := by
    cases c with
    | feed chunk =>
      show some ((twin d).feed chunk, Answer.fed) = some (twin (d.feed chunk), Answer.fed)
      rw [feed_twin]
    | poll =>
      show some ((twin d).next.2, Answer.polled (twin d).next.1) =
        some (twin d.nextFrame.2, Answer.polled (d.nextFrame.1.mapError thrown))
      rw [next_twin]

theorem delivered_entry (h : List (Entry Decoder (Call UInt8) (Answer Bytes ProtocolError))) :
    delivered (h.map polled.entry) = delivered h := by
  unfold delivered
  rw [List.filterMap_map]
  refine List.filterMap_congr fun x _ => ?_
  obtain ⟨d, c, _ | (e | p), d'⟩ := x
  · rfl
  · rfl
  · rfl

theorem raised_entry (h : List (Entry Decoder (Call UInt8) (Answer Bytes ProtocolError))) :
    raised (h.map polled.entry) = (raised h).map thrown := by
  induction h with
  | nil => rfl
  | cons x h ih =>
    unfold raised at ih ⊢
    rw [List.map_cons, List.findSome?_cons, List.findSome?_cons, ih]
    obtain ⟨d, c, _ | (e | p), d'⟩ := x
    · rfl
    · rfl
    · rfl

/-! ## Either end in either language -/

inductive Codec where
  | rust
  | typeScript
  deriving DecidableEq, Repr

/-- What a reader has got from a connection. -/
structure Reading where
  payloads : List Bytes
  error : Option Thrown
  buffered : Nat
  next : Except Thrown (Option Bytes)

namespace Codec

def encode (limit : Nat) : Codec → Bytes → Except Thrown Bytes
  | rust, payload => (encodeWithLimit payload limit).mapError thrown
  | typeScript, payload => encodeFrame payload limit

def read (limit : Nat) (calls : List (Call UInt8)) : Codec → Reading
  | rust =>
    { payloads := delivered (Decoder.history limit calls)
      error := (raised (Decoder.history limit calls)).map thrown
      buffered := (Decoder.after limit calls).buffered
      next := (Decoder.after limit calls).nextFrame.1.mapError thrown }
  | typeScript =>
    { payloads := delivered (trace FrameDecoder.call (.new limit) calls)
      error := raised (trace FrameDecoder.call (.new limit) calls)
      buffered := (final FrameDecoder.call (.new limit) calls).buffer.length
      next := (final FrameDecoder.call (.new limit) calls).next.1 }

end Codec

/-- It does not matter which decoder reads. -/
theorem read_eq (limit : Nat) (calls : List (Call UInt8)) (reader : Codec) :
    reader.read limit calls = Codec.rust.read limit calls := by
  cases reader with
  | rust => rfl
  | typeScript =>
    have htrace := polled.trace_eq (.withLimit limit) calls
    have hfinal := polled.final_eq (.withLimit limit) calls
    rw [show calls.map polled.event = calls from List.map_id calls] at htrace hfinal
    have hstart : polled.state (.withLimit limit) = .new limit := rfl
    rw [hstart] at htrace hfinal
    unfold Codec.read
    rw [htrace, hfinal, delivered_entry, raised_entry]
    show Reading.mk _ _ _ (twin (Decoder.after limit calls)).next.1 = _
    rw [next_twin]
    rfl

/-- Nor which encoder wrote a frame, of a payload whose length has a header. -/
theorem encode_eq {payload : Bytes} (h : payload.length < 2 ^ 32) (limit : Nat)
    (writer : Codec) :
    writer.encode limit payload = (encodeWithLimit payload limit).mapError thrown := by
  cases writer with
  | rust => rfl
  | typeScript => exact (encodeFrame_eq_iff payload limit).mpr fun _ => h

theorem mapM_encode {limit : Nat} {messages : List (Codec × Bytes)} {frames : List Bytes}
    (hshort : ∀ m ∈ messages, m.2.length < 2 ^ 32)
    (h : messages.mapM (fun m => m.1.encode limit m.2) = .ok frames) :
    (messages.map Prod.snd).mapM (encodeWithLimit · limit) = .ok frames := by
  induction messages generalizing frames with
  | nil =>
    cases h
    rfl
  | cons m messages ih =>
    rw [List.forall_mem_cons] at hshort
    rw [List.mapM_cons, bind_eq_ok_iff] at h
    obtain ⟨frame, hframe, h⟩ := h
    rw [bind_eq_ok_iff] at h
    obtain ⟨rest, hrest, hframes⟩ := h
    rw [encode_eq hshort.1, mapError_eq_ok_iff] at hframe
    rw [List.map_cons, List.mapM_cons, hframe, ok_bind, ih hshort.2 hrest, ok_bind]
    cases hframes
    rfl

/-- Frames cross between the languages.  What encoders of either wrote, in any mix, a
decoder of either hands out in order, however the bytes are cut and whenever it is
asked, and once it has been asked often enough it has handed out everything, with no
error and nothing left over. -/
theorem frames_cross (limit : Nat) (messages : List (Codec × Bytes)) (frames : List Bytes)
    (hshort : ∀ m ∈ messages, m.2.length < 2 ^ 32)
    (hencode : messages.mapM (fun m => m.1.encode limit m.2) = .ok frames) (reader : Codec) :
    (∀ calls later, fed calls ++ later = frames.flatten →
      (reader.read limit calls).payloads <+: messages.map Prod.snd) ∧
    (∀ calls, fed calls = frames.flatten →
      (∃ k, ∀ p, (reader.read limit (calls ++ List.replicate k .poll)).next ≠ .ok (some p)) ∧
      ((∀ p, (reader.read limit calls).next ≠ .ok (some p)) →
        reader.read limit calls = ⟨messages.map Prod.snd, none, 0, .ok none⟩)) := by
  have hF := Decoder.refines limit
  have hstart : Decoder.view (.withLimit limit) = ⟨[], false⟩ := rfl
  have hcuts := cuts_of_encode (mapM_encode hshort hencode)
  have hempty : (framing limit).front [] = .more := rfl
  refine ⟨fun calls later hfed => ?_, fun calls hfed => ⟨?_, fun hstop => ?_⟩⟩
  · rw [read_eq]
    have hprefix := delivered_prefix hF Decoder.call_total rfl hstart calls later
    rw [hfed, hcuts.parse_of_more hempty] at hprefix
    exact hprefix
  · obtain ⟨k, hk⟩ := polls_drain hF Decoder.call_total rfl hstart calls
    refine ⟨k, fun p hp => (Decoder.drained_iff _).mp hk p ?_⟩
    rw [read_eq] at hp
    exact mapError_eq_ok_iff.mp hp
  · rw [read_eq] at hstop ⊢
    have hdrained : Drained Decoder.call (Decoder.after limit calls) :=
      (Decoder.drained_iff _).mpr fun p hp => hstop p (mapError_eq_ok_iff.mpr hp)
    obtain ⟨hall, hraised, hbuffer⟩ := delivered_of_cuts hF Decoder.call_total rfl hstart hempty
      (hfed ▸ hcuts) hdrained
    have hnothing : (Decoder.after limit calls).buffer = [] := hbuffer
    have hnext : (Decoder.after limit calls).nextFrame.1 = .ok none := by
      rw [Decoder.nextFrame, if_pos]
      rw [hnothing]
      exact .inr (by decide)
    have hpayloads : delivered (Decoder.history limit calls) = messages.map Prod.snd := hall
    have hnoError : raised (Decoder.history limit calls) = none := hraised
    rw [Codec.read, hpayloads, hnoError, hnext, Decoder.buffered, hnothing]
    rfl

/-- One frame from each encoder, in three pieces, to the TypeScript decoder. -/
theorem frames_cross_two_writers :
    Codec.typeScript.read 8 [.feed [0, 0], .poll, .feed [0, 1, 7, 0, 0, 0, 2], .poll,
      .feed [8, 9], .poll] = ⟨[[7], [8, 9]], none, 0, .ok none⟩ :=
  ((frames_cross 8 [(.rust, [7]), (.typeScript, [8, 9])] [[0, 0, 0, 1, 7], [0, 0, 0, 2, 8, 9]]
    (by decide) (by rfl) .typeScript).2 _ (by decide)).2 fun p hp => by
      rw [read_eq] at hp
      cases hp

end TypeScript
end IndieWorker
