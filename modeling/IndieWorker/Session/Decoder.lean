import IndieWorker.Lib.Framing
import IndieWorker.Lib.Run
import IndieWorker.Session.RoundTrip

/-!
# The incremental decoder

`FrameDecoder` of `src/runtime/session.rs`, and why it does not matter how the
bytes of a connection were split or when the decoder was asked.
-/

namespace IndieWorker
namespace Session

open BigEndian Reading

/-- A buffer of bytes received and not yet handed out as frames. -/
structure FrameDecoder where
  buffer : Bytes
  deriving DecidableEq, Repr

namespace FrameDecoder

def new : FrameDecoder := ⟨[]⟩

def feed (d : FrameDecoder) (bytes : Bytes) : FrameDecoder := ⟨d.buffer ++ bytes⟩

/-- Next complete frame, if there is one. -/
def nextFrame (d : FrameDecoder) : Except CodecError (Option Frame) × FrameDecoder :=
  match Frame.decodeFramed d.buffer with
  | .ok (frame, consumed) => (.ok (some frame), ⟨d.buffer.drop consumed⟩)
  | .error .incomplete => (.ok none, d)
  | .error other => (.error other, d)

/-- Bytes held but not yet a whole frame. -/
def pending (d : FrameDecoder) : Nat := d.buffer.length

end FrameDecoder

/-! ## The front of a buffer -/

namespace Reader

theorem take_failsOnly (n : Nat) : FailsOnly (take n) .malformed := by
  intro r e h
  unfold take at h
  split at h
  · cases h
  · cases h
    rfl

theorem u8_failsOnly : FailsOnly u8 .malformed :=
  (take_failsOnly 1).bind fun _ => failsOnly_pure _ _

theorem u16_failsOnly : FailsOnly u16 .malformed :=
  (take_failsOnly 2).bind fun _ => failsOnly_pure _ _

theorem u32_failsOnly : FailsOnly u32 .malformed :=
  (take_failsOnly 4).bind fun _ => failsOnly_pure _ _

theorem u64_failsOnly : FailsOnly u64 .malformed :=
  (take_failsOnly 8).bind fun _ => failsOnly_pure _ _

theorem bytesField_failsOnly : FailsOnly bytesField .malformed :=
  u32_failsOnly.bind fun _ => take_failsOnly _

theorem string_failsOnly : FailsOnly string .malformed := by
  refine bytesField_failsOnly.bind fun raw => ?_
  split
  · exact failsOnly_pure _ _
  · exact failsOnly_throw _

theorem flag_failsOnly {α : Type} {zero : α} {one : M α} (hone : FailsOnly one .malformed) :
    FailsOnly (do match ← u8 with
      | 0 => return zero
      | 1 => one
      | _ => throw .malformed : M α) .malformed := by
  refine u8_failsOnly.bind fun b => ?_
  split
  · exact failsOnly_pure _ _
  · exact hone
  · exact failsOnly_throw _

theorem optString_failsOnly : FailsOnly optString .malformed :=
  flag_failsOnly (string_failsOnly.bind fun _ => failsOnly_pure _ _)

theorem bool_failsOnly : FailsOnly bool .malformed :=
  flag_failsOnly (failsOnly_pure _ _)

theorem optU64_failsOnly : FailsOnly optU64 .malformed :=
  flag_failsOnly (u64_failsOnly.bind fun _ => failsOnly_pure _ _)

theorem errorCode_failsOnly : FailsOnly errorCode .malformed := by
  refine u8_failsOnly.bind fun b => ?_
  split
  · exact failsOnly_pure _ _
  · exact failsOnly_throw _

end Reader

namespace Frame

open Reader in
theorem decodeFields_failsOnly (t : UInt8) : FailsOnly (decodeFields t) .malformed := by
  have h₁ {α β : Type} {m : M α} (f : α → β) (h : FailsOnly m .malformed) :
      FailsOnly (do return f (← m)) .malformed := h.bind fun _ => failsOnly_pure _ _
  have h₂ {α α' β : Type} {m : M α} {m' : M α'} (f : α → α' → β) (h : FailsOnly m .malformed)
      (h' : FailsOnly m' .malformed) : FailsOnly (do return f (← m) (← m')) .malformed :=
    h.bind fun _ => h₁ _ h'
  unfold decodeFields
  split
  · exact h₂ _ u16_failsOnly optString_failsOnly
  · exact string_failsOnly.bind fun _ => h₂ _ bool_failsOnly u32_failsOnly
  · exact h₁ _ u64_failsOnly
  · exact h₁ _ u64_failsOnly
  · exact string_failsOnly.bind fun _ => h₂ _ u64_failsOnly u32_failsOnly
  · exact h₁ _ string_failsOnly
  · exact h₂ _ string_failsOnly u32_failsOnly
  · exact string_failsOnly.bind fun _ => h₂ _ u64_failsOnly bytesField_failsOnly
  · exact h₂ _ string_failsOnly u64_failsOnly
  · exact u64_failsOnly.bind fun _ => h₂ _ string_failsOnly bytesField_failsOnly
  · exact h₂ _ u64_failsOnly bytesField_failsOnly
  · exact optU64_failsOnly.bind fun _ => h₂ _ errorCode_failsOnly string_failsOnly
  · exact h₂ _ errorCode_failsOnly string_failsOnly
  · exact failsOnly_throw _

/-- A body is never incomplete: it decodes or it is malformed. -/
theorem decode_error {b : Bytes} {e : CodecError} (h : decode b = .error e) : e = .malformed := by
  rcases hrun : (do decodeFields (← Reader.u8) : Reader.M Frame) (Reader.new b) with e' | ⟨f, r⟩
  · rw [decode, hrun] at h
    cases h
    exact (Reader.u8_failsOnly.bind decodeFields_failsOnly) _ _ hrun
  · rw [decode, hrun] at h
    by_cases hdone : r.done = true
    · simp [hdone, bind, Except.bind, pure, Except.pure] at h
    · simp only [hdone, bind, Except.bind, throw, throwThe, MonadExceptOf.throw] at h
      cases h
      rfl

/-- The length the first four bytes of a buffer declare. -/
def declared (b : Bytes) : Nat := beValue (b.take 4)

/-- The body the first four bytes of a buffer declare. -/
def declaredBody (b : Bytes) : Bytes := (b.take (4 + declared b)).drop 4

/-- What `decodeFramed` finds at the front of a buffer. -/
def front (b : Bytes) : Front Frame CodecError :=
  match decodeFramed b with
  | .ok (f, n) => .item f n
  | .error .incomplete => .more
  | .error e => .fail e

theorem front_of_short {b : Bytes} (h : b.length < 4) : front b = .more := by
  simp only [front, decodeFramed, if_pos h]

theorem front_of_tooLarge {b : Bytes} (h : 4 ≤ b.length) (hd : MAX_FRAME_BYTES < declared b) :
    front b = .fail (.tooLarge (declared b)) := by
  simp only [front, decodeFramed, if_neg (Nat.not_lt.mpr h)]
  rw [if_pos (show beValue (b.take 4) > MAX_FRAME_BYTES from hd)]
  rfl

theorem front_of_incomplete {b : Bytes} (hd : declared b ≤ MAX_FRAME_BYTES)
    (hb : b.length < 4 + declared b) : front b = .more := by
  by_cases h : b.length < 4
  · exact front_of_short h
  · simp only [front, decodeFramed, if_neg h]
    rw [if_neg (show ¬ beValue (b.take 4) > MAX_FRAME_BYTES from Nat.not_lt.mpr hd),
      if_pos (show b.length < 4 + beValue (b.take 4) from hb)]

theorem front_of_whole {b : Bytes} (hd : declared b ≤ MAX_FRAME_BYTES)
    (hb : 4 + declared b ≤ b.length) :
    front b = match decode (declaredBody b) with
      | .ok f => .item f (4 + declared b)
      | .error e => .fail e := by
  have h : ¬ b.length < 4 := by omega
  have hlarge : ¬ beValue (b.take 4) > MAX_FRAME_BYTES := Nat.not_lt.mpr hd
  have hwhole : ¬ b.length < 4 + beValue (b.take 4) := Nat.not_lt.mpr hb
  simp only [front, decodeFramed, if_neg h, if_neg hlarge, if_neg hwhole]
  show (match (do return (← decode (declaredBody b), 4 + declared b)) with
    | .ok (f, n) => .item f n
    | .error .incomplete => .more
    | .error e => .fail e : Front Frame CodecError) = _
  rcases hdec : decode (declaredBody b) with e | f
  · rw [decode_error hdec]
    rfl
  · rfl

/-- The four cases of a buffer, by its length and the length it declares. -/
theorem front_cases (b : Bytes) :
    b.length < 4 ∨ (4 ≤ b.length ∧ MAX_FRAME_BYTES < declared b) ∨
      (declared b ≤ MAX_FRAME_BYTES ∧ b.length < 4 + declared b) ∨
        (declared b ≤ MAX_FRAME_BYTES ∧ 4 + declared b ≤ b.length) := by
  omega

theorem declared_append {b : Bytes} (h : 4 ≤ b.length) (x : Bytes) :
    declared (b ++ x) = declared b := by
  rw [declared, declared, List.take_append_of_le_length h]

theorem declaredBody_append {b : Bytes} (h : 4 + declared b ≤ b.length) (x : Bytes) :
    declaredBody (b ++ x) = declaredBody b := by
  rw [declaredBody, declaredBody, declared_append (by omega),
    List.take_append_of_le_length h]

/-- A buffer whose front is a frame or an error holds the whole declared body,
or declares too much. -/
theorem front_append {b : Bytes} (h : front b ≠ .more) (x : Bytes) :
    front (b ++ x) = front b := by
  have hlen : b.length ≤ (b ++ x).length := by rw [List.length_append]; omega
  rcases front_cases b with hb | ⟨hb, hd⟩ | ⟨hd, hb⟩ | ⟨hd, hb⟩
  · exact absurd (front_of_short hb) h
  · have hda := declared_append hb x
    rw [front_of_tooLarge hb hd, front_of_tooLarge (by omega) (by omega), hda]
  · exact absurd (front_of_incomplete hd hb) h
  · have hda := declared_append (b := b) (by omega) x
    rw [front_of_whole hd hb, front_of_whole (b := b ++ x) (by omega) (by omega), hda,
      declaredBody_append hb]

theorem front_item {b : Bytes} {f : Frame} {n : Nat} (h : front b = .item f n) :
    4 ≤ n ∧ n ≤ b.length := by
  rcases front_cases b with hb | ⟨hb, hd⟩ | ⟨hd, hb⟩ | ⟨hd, hb⟩
  · rw [front_of_short hb] at h
    cases h
  · rw [front_of_tooLarge hb hd] at h
    cases h
  · rw [front_of_incomplete hd hb] at h
    cases h
  · rw [front_of_whole hd hb] at h
    split at h
    · cases h
      exact ⟨Nat.le_add_right 4 _, hb⟩
    · cases h

/-- The TCP framing of session frames. -/
def framing : Framing UInt8 Frame CodecError where
  front := front
  item_pos h := by have := front_item h; omega
  item_le h := (front_item h).2
  item_append x h := by rw [front_append (by rw [h]; nofun), h]
  fail_append x h := by rw [front_append (by rw [h]; nofun), h]

/-- The one-shot parse: `decodeFramed` from the front until it stops. -/
def greedy (w : Bytes) : List Frame × Option CodecError := framing.parse w

end Frame

end Session
end IndieWorker
