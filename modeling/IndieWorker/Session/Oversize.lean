import IndieWorker.Session.Schedule

/-!
# Frames too large to read

The encoder of `src/runtime/session.rs` does not look at the limit that the decoder
enforces.  Which frames come back is decided by the sizes of their fields.
-/

namespace IndieWorker
namespace Session
namespace Frame

/-- The size of a length-prefixed field. -/
def fieldLength (value : Bytes) : Nat := 4 + value.length

/-- The size of the body, by the fields: the tag, fixed-width numbers, flags, and the
strings and byte strings with their prefixes. -/
def bodyLength : Frame → Nat
  | .hello _ none => 1 + 2 + 1
  | .hello _ (some resume) => 1 + 2 + 1 + fieldLength (asBytes resume)
  | .welcome session _ _ => 1 + fieldLength (asBytes session) + 1 + 4
  | .ping _ | .pong _ => 1 + 8
  | .subscribe stream _ _ => 1 + fieldLength (asBytes stream) + 8 + 4
  | .unsubscribe stream => 1 + fieldLength (asBytes stream)
  | .credit stream _ => 1 + fieldLength (asBytes stream) + 4
  | .event stream _ payload => 1 + fieldLength (asBytes stream) + 8 + fieldLength payload
  | .lagged stream _ => 1 + fieldLength (asBytes stream) + 8
  | .command _ verb payload => 1 + 8 + fieldLength (asBytes verb) + fieldLength payload
  | .ack _ payload => 1 + 8 + fieldLength payload
  | .error none _ message => 1 + 1 + 1 + fieldLength (asBytes message)
  | .error (some _) _ message => 1 + 9 + 1 + fieldLength (asBytes message)
  | .close _ message => 1 + 1 + fieldLength (asBytes message)

theorem putU16_length (v : UInt16) : (putU16 v).length = 2 := BigEndian.beBytes_length _ _

theorem putU64_length (v : UInt64) : (putU64 v).length = 8 := BigEndian.beBytes_length _ _

theorem encode_length (f : Frame) : f.encode.length = f.bodyLength := by
  cases f with
  | hello version resume =>
    cases resume with
    | none => rfl
    | some resume =>
      simp only [encode, encodeFields, putOptStr, bodyLength, fieldLength, List.length_cons,
        List.length_append, putU16_length, putStr_length]
      omega
  | error id code message =>
    cases id with
    | none =>
      simp only [encode, encodeFields, putOptU64, bodyLength, fieldLength, List.length_cons,
        List.length_append, List.length_nil, putStr_length]
      omega
    | some id =>
      simp only [encode, encodeFields, putOptU64, bodyLength, fieldLength, List.length_cons,
        List.length_append, List.length_nil, putU64_length, putStr_length]
      omega
  | ping | pong => rfl
  | _ =>
    simp only [encode, encodeFields, bodyLength, fieldLength, List.length_cons,
      List.length_append, List.length_nil, putU32_length, putU64_length, putStr_length,
      putBytes_length]
    omega

theorem decodeFramed_of_front {b : Bytes} {f : Frame} {n : Nat} (h : front b = .item f n) :
    decodeFramed b = .ok (f, n) := by
  unfold front at h
  split at h
  · next hok =>
    cases h
    exact hok
  · cases h
  · cases h

/-- A body over the limit declares a length over the limit, whether or not the
length fits its prefix. -/
theorem front_of_oversize {f : Frame} (h : MAX_FRAME_BYTES < f.encode.length) (rest : Bytes) :
    ∃ n, front (f.encodeFramed ++ rest) = .fail (.tooLarge n) := by
  have hput := putU32_length (u32OrMax f.encode.length)
  have hdeclared : declared (f.encodeFramed ++ rest) = (u32OrMax f.encode.length).toNat := by
    rw [declared, encodeFramed, List.append_assoc, ← hput, List.take_left, putU32,
      BigEndian.beValue_beBytes (UInt32.toNat_lt _)]
  have hlarge : MAX_FRAME_BYTES < (u32OrMax f.encode.length).toNat := by
    by_cases hfits : f.encode.length < 2 ^ 32
    · rw [Reader.u32OrMax_toNat hfits]
      exact h
    · rw [u32OrMax, if_neg hfits]
      decide
  refine ⟨_, front_of_tooLarge ?_ (hdeclared ▸ hlarge)⟩
  rw [encodeFramed, List.length_append, List.length_append, hput]
  omega

theorem decodeFramed_of_oversize {f : Frame} (h : MAX_FRAME_BYTES < f.bodyLength)
    (rest : Bytes) (p : Frame × Nat) : decodeFramed (f.encodeFramed ++ rest) ≠ .ok p := by
  intro hok
  rw [← encode_length] at h
  obtain ⟨n, hfront⟩ := front_of_oversize h rest
  rw [front, hok] at hfront
  cases hfront

/-- The decoder takes what the encoder wrote exactly when the fields of the frame
stay within the limit. -/
theorem framed_round_trip_iff (f : Frame) :
    (∀ rest, decodeFramed (f.encodeFramed ++ rest) = .ok (f, f.encodeFramed.length)) ↔
      f.bodyLength ≤ MAX_FRAME_BYTES := by
  constructor
  · intro hok
    by_contra hlarge
    exact decodeFramed_of_oversize (Nat.not_le.mp hlarge) [] _ (hok [])
  · intro hle rest
    rw [← encode_length] at hle
    exact decodeFramed_of_front (front_encodeFramed hle rest)

/-- An answer of a megabyte is written and then refused. -/
theorem megabyte_refused :
    ¬ ∀ rest, decodeFramed ((Frame.ack 0 (List.replicate 1048576 0)).encodeFramed ++ rest) =
      .ok (.ack 0 (List.replicate 1048576 0),
        (Frame.ack 0 (List.replicate 1048576 0)).encodeFramed.length) := by
  intro hok
  refine decodeFramed_of_oversize ?_ [] _ (hok [])
  rw [bodyLength, fieldLength, List.length_replicate]
  decide

end Frame
end Session
end IndieWorker
