import IndieWorker.Lib.BigEndian
import IndieWorker.Lib.Polling
import IndieWorker.Protocol

/-!
# Length-prefixed framing

`encode_with_limit` and `Decoder` of `src/protocol/tcp.rs`.  The decoder refines
a polled decoder over the framing, so the chunks of a connection and the moments
at which it is asked do not matter.
-/

namespace IndieWorker
namespace Protocol

open BigEndian

/-- The size of the length prefix. -/
def HEADER_BYTES : Nat := 4

/-- Frame one payload against a limit. -/
def encodeWithLimit (payload : Bytes) (limit : Nat) : Except ProtocolError Bytes :=
  if payload = [] then .error .emptyFrame
  else if payload.length > limit then .error (.frameTooLarge payload.length limit)
  else if payload.length < 2 ^ 32 then .ok (beBytes HEADER_BYTES payload.length ++ payload)
  else .error (.frameTooLarge payload.length limit)

def encode (payload : Bytes) : Except ProtocolError Bytes := encodeWithLimit payload MAX_FRAME_BYTES

/-- Incremental decoder. -/
structure Decoder where
  buffer : Bytes
  limit : Nat
  poisoned : Bool
  deriving DecidableEq, Repr

namespace Decoder

def withLimit (limit : Nat) : Decoder := ⟨[], limit, false⟩

def new : Decoder := withLimit MAX_FRAME_BYTES

/-- Bytes currently held back. -/
def buffered (d : Decoder) : Nat := d.buffer.length

def isPoisoned (d : Decoder) : Bool := d.poisoned

def feed (d : Decoder) (chunk : Bytes) : Decoder :=
  if d.poisoned then d else { d with buffer := d.buffer ++ chunk }

/-- Pull the next complete payload, if one has arrived. -/
def nextFrame (d : Decoder) : Except ProtocolError (Option Bytes) × Decoder :=
  if d.poisoned ∨ d.buffer.length < HEADER_BYTES then (.ok none, d)
  else
    let declared := beValue (d.buffer.take HEADER_BYTES)
    if declared = 0 then (.error .emptyFrame, { d with poisoned := true })
    else if declared > d.limit then
      (.error (.frameTooLarge declared d.limit), { d with poisoned := true })
    else if d.buffer.length < HEADER_BYTES + declared then (.ok none, d)
    else
      (.ok (some ((d.buffer.take (HEADER_BYTES + declared)).drop HEADER_BYTES)),
        { d with buffer := d.buffer.drop (HEADER_BYTES + declared) })

/-- Pull the next payload as text, rejecting non-UTF-8. -/
def nextText (d : Decoder) : Except ProtocolError (Option String) × Decoder :=
  match d.nextFrame with
  | (.error e, d) => (.error e, d)
  | (.ok none, d) => (.ok none, d)
  | (.ok (some bytes), d) =>
    match String.fromUTF8? ⟨bytes.toArray⟩ with
    | some text => (.ok (some text), d)
    | none => (.error .notUtf8, { d with poisoned := true })

end Decoder

/-! ## The format -/

/-- The length the first four bytes declare. -/
def declared (b : Bytes) : Nat := beValue (b.take HEADER_BYTES)

/-- The front of a stream of frames. -/
def front (limit : Nat) (b : Bytes) : Front Bytes ProtocolError :=
  if b.length < HEADER_BYTES then .more
  else if declared b = 0 then .fail .emptyFrame
  else if declared b > limit then .fail (.frameTooLarge (declared b) limit)
  else if b.length < HEADER_BYTES + declared b then .more
  else .item ((b.take (HEADER_BYTES + declared b)).drop HEADER_BYTES) (HEADER_BYTES + declared b)

theorem declared_append {b : Bytes} (h : HEADER_BYTES ≤ b.length) (x : Bytes) :
    declared (b ++ x) = declared b := by
  rw [declared, declared, List.take_append_of_le_length h]

theorem front_item {limit : Nat} {b p : Bytes} {n : Nat} (h : front limit b = .item p n) :
    n = HEADER_BYTES + declared b ∧ n ≤ b.length ∧ p = (b.take n).drop HEADER_BYTES ∧
      declared b ≠ 0 ∧ declared b ≤ limit := by
  unfold front at h
  split at h
  · cases h
  · split at h
    · cases h
    · next hzero =>
      split at h
      · cases h
      · next hlimit =>
        split at h
        · cases h
        · next hwhole =>
          cases h
          exact ⟨rfl, Nat.not_lt.mp hwhole, rfl, hzero, Nat.not_lt.mp hlimit⟩

/-- A front that is decided stays as it is. -/
theorem front_append {limit : Nat} {b : Bytes} (h : front limit b ≠ .more) (x : Bytes) :
    front limit (b ++ x) = front limit b := by
  by_cases hheader : b.length < HEADER_BYTES
  · exact absurd (if_pos hheader) h
  · have hdeclared := declared_append (Nat.not_lt.mp hheader) x
    have hlonger : ¬ (b ++ x).length < HEADER_BYTES := by
      rw [List.length_append]
      omega
    unfold front at h ⊢
    rw [if_neg hheader] at h ⊢
    rw [if_neg hlonger, hdeclared]
    by_cases hzero : declared b = 0
    · rw [if_pos hzero, if_pos hzero]
    · rw [if_neg hzero] at h ⊢
      rw [if_neg hzero]
      by_cases hlimit : declared b > limit
      · rw [if_pos hlimit, if_pos hlimit]
      · rw [if_neg hlimit] at h ⊢
        rw [if_neg hlimit]
        by_cases hwhole : b.length < HEADER_BYTES + declared b
        · exact absurd (if_pos hwhole) h
        · have hlonger' : ¬ (b ++ x).length < HEADER_BYTES + declared b := by
            rw [List.length_append]
            omega
          rw [if_neg hwhole, if_neg hlonger', List.take_append_of_le_length (by omega)]

/-- The framing of one connection. -/
def framing (limit : Nat) : Framing UInt8 Bytes ProtocolError where
  front := front limit
  item_pos h := by
    rw [(front_item h).1]
    exact Nat.lt_of_lt_of_le (by decide) (Nat.le_add_right HEADER_BYTES _)
  item_le h := (front_item h).2.1
  item_append x h := by rw [front_append (by rw [h]; nofun), h]
  fail_append x h := by rw [front_append (by rw [h]; nofun), h]

/-- The one-shot parse: the payloads of a stream, and the error it ends in. -/
def parse (limit : Nat) (w : Bytes) : List Bytes × Option ProtocolError := (framing limit).parse w

end Protocol
end IndieWorker
