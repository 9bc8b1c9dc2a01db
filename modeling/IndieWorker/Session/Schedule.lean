import IndieWorker.Session.Decoder

/-!
# Schedules of a connection

A schedule feeds the decoder chunks and asks it for frames in any order.  The
frames it hands out are those of the one-shot parse of all the bytes, however
they were cut.
-/

namespace IndieWorker
namespace Session

open Run

namespace FrameDecoder

/-- What a caller of the decoder does. -/
inductive Call where
  | feed (chunk : Bytes)
  | nextFrame
  deriving DecidableEq, Repr

/-- What the decoder answers. -/
inductive Answer where
  | fed
  | next (r : Except CodecError (Option Frame))

def call (d : FrameDecoder) : Call → Option (FrameDecoder × Answer)
  | .feed chunk => some (d.feed chunk, .fed)
  | .nextFrame => some (d.nextFrame.2, .next d.nextFrame.1)

/-- The bytes a schedule feeds, in order. -/
def fed (calls : List Call) : Bytes :=
  calls.flatMap fun
    | .feed chunk => chunk
    | .nextFrame => []

def history (calls : List Call) : List (Entry FrameDecoder Call Answer) := trace call new calls

/-- The decoder after a schedule. -/
def after (calls : List Call) : FrameDecoder := final call new calls

/-- The frames a schedule was handed, in order. -/
def delivered (calls : List Call) : List Frame :=
  (history calls).filterMap fun x =>
    match x.output with
    | .next (.ok frame) => frame
    | _ => none

/-- The answer of a decoder that has no frame left before the end of a parse. -/
def ending : Option CodecError → Except CodecError (Option Frame)
  | none => .ok none
  | some e => .error e

theorem call_total (d : FrameDecoder) (c : Call) : (call d c).isSome := by
  cases c <;> rfl

theorem nextFrame_eq (d : FrameDecoder) :
    d.nextFrame = match Frame.front d.buffer with
      | .item f n => (.ok (some f), ⟨d.buffer.drop n⟩)
      | .more => (.ok none, d)
      | .fail e => (.error e, d) := by
  unfold nextFrame Frame.front
  rcases Frame.decodeFramed d.buffer with (_ | _ | _) | ⟨f, n⟩ <;> rfl

theorem nextFrame_of_item {d : FrameDecoder} {f : Frame} {n : Nat}
    (h : Frame.front d.buffer = .item f n) :
    d.nextFrame = (.ok (some f), ⟨d.buffer.drop n⟩) := by
  rw [nextFrame_eq, h]

theorem nextFrame_of_more {d : FrameDecoder} (h : Frame.front d.buffer = .more) :
    d.nextFrame = (.ok none, d) := by
  rw [nextFrame_eq, h]

theorem nextFrame_of_fail {d : FrameDecoder} {e : CodecError}
    (h : Frame.front d.buffer = .fail e) : d.nextFrame = (.error e, d) := by
  rw [nextFrame_eq, h]

theorem fed_concat (calls : List Call) (c : Call) : fed (calls ++ [c]) = fed calls ++ fed [c] :=
  List.flatMap_append

theorem fed_polls (calls : List Call) (k : Nat) :
    fed (calls ++ List.replicate k .nextFrame) = fed calls := by
  have : fed (List.replicate k .nextFrame) = [] := by
    simp [fed, List.flatMap_eq_nil_iff]
  rw [fed, List.flatMap_append]
  show fed calls ++ fed (List.replicate k .nextFrame) = fed calls
  rw [this, List.append_nil]

theorem after_feed (calls : List Call) (chunk : Bytes) :
    after (calls ++ [.feed chunk]) = (after calls).feed chunk :=
  final_concat call_total rfl

theorem after_poll (calls : List Call) :
    after (calls ++ [.nextFrame]) = (after calls).nextFrame.2 :=
  final_concat call_total rfl

theorem history_feed (calls : List Call) (chunk : Bytes) :
    history (calls ++ [.feed chunk]) =
      history calls ++ [⟨after calls, .feed chunk, .fed, (after calls).feed chunk⟩] :=
  trace_concat call_total rfl

theorem history_poll (calls : List Call) :
    history (calls ++ [.nextFrame]) =
      history calls ++
        [⟨after calls, .nextFrame, .next (after calls).nextFrame.1, (after calls).nextFrame.2⟩] :=
  trace_concat call_total rfl

theorem delivered_feed (calls : List Call) (chunk : Bytes) :
    delivered (calls ++ [.feed chunk]) = delivered calls := by
  rw [delivered, history_feed, List.filterMap_append]
  exact List.append_nil _

theorem delivered_poll (calls : List Call) :
    delivered (calls ++ [.nextFrame]) =
      delivered calls ++ (match (after calls).nextFrame.1 with
        | .ok frame => frame.toList
        | .error _ => []) := by
  rw [delivered, history_poll, List.filterMap_append]
  rcases (after calls).nextFrame.1 with e | _ | f <;> rfl

/-- After any schedule the frames handed out, cut from the bytes fed, leave what
the decoder holds. -/
theorem cuts_after (calls : List Call) :
    Frame.framing.Cuts (fed calls) (delivered calls) (after calls).buffer := by
  induction calls using List.reverseRecOn with
  | nil => exact .nil []
  | append_singleton calls c ih =>
    cases c with
    | feed chunk =>
      rw [fed_concat, delivered_feed, after_feed]
      have hfed : fed [.feed chunk] = chunk := List.append_nil chunk
      rw [hfed]
      exact ih.append chunk
    | nextFrame =>
      rw [fed_concat, delivered_poll, after_poll]
      have hfed : fed [.nextFrame] = [] := rfl
      rw [hfed, List.append_nil]
      rcases hf : Frame.front (after calls).buffer with _ | ⟨f, n⟩ | e
      · rw [nextFrame_of_more hf]
        simpa using ih
      · rw [nextFrame_of_item hf]
        exact ih.concat hf
      · rw [nextFrame_of_fail hf]
        simpa using ih

/-- A decoder that does not answer with a frame has handed out all of them. -/
theorem delivered_of_stopped {calls : List Call}
    (h : ∀ f, (after calls).nextFrame.1 ≠ .ok (some f)) :
    delivered calls = (Frame.greedy (fed calls)).1 ∧
      (after calls).nextFrame.1 = ending (Frame.greedy (fed calls)).2 := by
  have hcuts := cuts_after calls
  rcases hf : Frame.front (after calls).buffer with _ | ⟨f, n⟩ | e
  · rw [nextFrame_of_more hf, Frame.greedy, hcuts.parse_of_more hf]
    exact ⟨rfl, rfl⟩
  · rw [nextFrame_of_item hf] at h
    exact absurd rfl (h f)
  · rw [nextFrame_of_fail hf, Frame.greedy, hcuts.parse_of_fail hf]
    exact ⟨rfl, rfl⟩

/-- Asking often enough reaches the end of the frames: each one shortens what is
held. -/
theorem polls_stop (calls : List Call) :
    ∃ k, ∀ f, (after (calls ++ List.replicate k .nextFrame)).nextFrame.1 ≠ .ok (some f) := by
  induction hn : (after calls).buffer.length using Nat.strongRecOn generalizing calls with
  | _ n ih =>
    rcases hf : Frame.front (after calls).buffer with _ | ⟨f, m⟩ | e
    · exact ⟨0, fun f => by simp [nextFrame_of_more hf]⟩
    · have hlt : (after (calls ++ [.nextFrame])).buffer.length < n := by
        rw [after_poll, nextFrame_of_item hf, ← hn]
        exact Frame.framing.drop_length_lt hf
      obtain ⟨k, hk⟩ := ih _ hlt _ rfl
      refine ⟨k + 1, fun f => ?_⟩
      rw [List.replicate_succ, List.append_cons]
      exact hk f
    · exact ⟨0, fun f => by simp [nextFrame_of_fail hf]⟩

/-- A decoder that waits holds less than the largest frame. -/
theorem pending_lt_of_waiting {d : FrameDecoder} (h : d.nextFrame.1 = .ok none) :
    d.nextFrame.2.pending < 4 + MAX_FRAME_BYTES := by
  rcases hf : Frame.front d.buffer with _ | ⟨f, n⟩ | e
  · rw [nextFrame_of_more hf]
    show d.buffer.length < _
    rcases Frame.front_cases d.buffer with hb | ⟨hb, hd⟩ | ⟨hd, hb⟩ | ⟨hd, hb⟩
    · omega
    · rw [Frame.front_of_tooLarge hb hd] at hf
      cases hf
    · omega
    · rw [Frame.front_of_whole hd hb] at hf
      split at hf <;> cases hf
  · rw [nextFrame_of_item hf] at h
    cases h
  · rw [nextFrame_of_fail hf] at h
    cases h

/-- Once an error has been answered, the buffer still holds it. -/
theorem error_kept (calls : List Call) :
    (∀ x ∈ history calls, ∀ e, x.output = .next (.error e) →
        Frame.front (after calls).buffer = .fail e) ∧
      (history calls).Pairwise fun x y => ∀ e, x.output = .next (.error e) →
        y.event = .nextFrame → y.output = .next (.error e) := by
  induction calls using List.reverseRecOn with
  | nil => exact ⟨by simp [history, trace], List.Pairwise.nil⟩
  | append_singleton calls c ih =>
    obtain ⟨hheld, hpair⟩ := ih
    cases c with
    | feed chunk =>
      rw [history_feed, after_feed, List.pairwise_append]
      refine ⟨fun x hx e he => ?_, hpair, List.pairwise_singleton _ _, ?_⟩
      · rcases List.mem_append.mp hx with hx | hx
        · exact Frame.framing.fail_append chunk (hheld x hx e he)
        · rw [List.mem_singleton] at hx
          subst hx
          cases he
      · intro x _ y hy e _ hnext
        rw [List.mem_singleton] at hy
        subst hy
        cases hnext
    | nextFrame =>
      rw [history_poll, after_poll, List.pairwise_append]
      refine ⟨fun x hx e he => ?_, hpair, List.pairwise_singleton _ _, ?_⟩
      · rcases List.mem_append.mp hx with hx | hx
        · have hfail := hheld x hx e he
          rwa [nextFrame_of_fail hfail]
        · rw [List.mem_singleton] at hx
          subst hx
          -- An error comes from the front, which is left in place.
          rcases hf : Frame.front (after calls).buffer with _ | ⟨f, n⟩ | e'
          · simp [nextFrame_of_more hf] at he
          · simp [nextFrame_of_item hf] at he
          · simp only [nextFrame_of_fail hf, Answer.next.injEq, Except.error.injEq] at he ⊢
            rw [hf, he]
      · intro x hx y hy e he _
        rw [List.mem_singleton] at hy
        subst hy
        simp only [nextFrame_of_fail (hheld x hx e he)]

end FrameDecoder

/-! ## Frames written back to back -/

namespace Frame

theorem putU32_length (v : UInt32) : (putU32 v).length = 4 := BigEndian.beBytes_length _ _

theorem putBytes_length (value : Bytes) : (putBytes value).length = 4 + value.length := by
  rw [putBytes, List.length_append, putU32_length]

theorem putStr_length (value : String) : (putStr value).length = 4 + (asBytes value).length :=
  putBytes_length _

/-- A frame whose body is within the limit carries only short fields. -/
theorem fits_of_encode_le {f : Frame} (h : f.encode.length ≤ MAX_FRAME_BYTES) : f.Fits := by
  have hmax : MAX_FRAME_BYTES < 2 ^ 32 := by decide
  cases f with
  | hello version resume =>
    intro s hs
    rw [Option.mem_def] at hs
    subst hs
    simp only [encode, encodeFields, putOptStr, List.length_cons, List.length_append,
      putStr_length] at h
    unfold Short
    omega
  | ping | pong => trivial
  | _ =>
    simp only [encode, encodeFields, List.length_cons, List.length_append, putStr_length,
      putBytes_length] at h
    simp only [Fits, Short]
    omega

/-- The front of a stream that begins with a framed encoding is that frame. -/
theorem front_encodeFramed {f : Frame} (h : f.encode.length ≤ MAX_FRAME_BYTES) (x : Bytes) :
    front (f.encodeFramed ++ x) = .item f f.encodeFramed.length := by
  have hlt : f.encode.length < 2 ^ 32 := Nat.lt_of_le_of_lt h (by decide)
  have hput := putU32_length (u32OrMax f.encode.length)
  have hlen : f.encodeFramed.length = 4 + f.encode.length := by
    rw [encodeFramed, List.length_append, hput]
  have hdecl : declared (f.encodeFramed ++ x) = f.encode.length := by
    rw [declared, encodeFramed, List.append_assoc, ← hput, List.take_left, putU32,
      Reader.u32OrMax_toNat hlt, BigEndian.beValue_beBytes hlt]
  have hbody : declaredBody (f.encodeFramed ++ x) = f.encode := by
    rw [declaredBody, hdecl, ← hlen, List.take_left, encodeFramed, ← hput, List.drop_left]
  rw [front_of_whole (by rw [hdecl]; exact h) (by rw [List.length_append, hdecl, hlen]; omega),
    hbody, hdecl, ← hlen, decode_eq_ok_iff.mpr ⟨fits_of_encode_le h, rfl⟩]

end Frame

namespace FrameDecoder

/-- The bytes of whole frames are handed out as those frames, with nothing left. -/
theorem delivered_of_frames {frames : List Frame} {calls : List Call}
    (hmax : ∀ f ∈ frames, f.encode.length ≤ MAX_FRAME_BYTES)
    (hfed : fed calls = (frames.map Frame.encodeFramed).flatten)
    (hstop : ∀ f, (after calls).nextFrame.1 ≠ .ok (some f)) :
    delivered calls = frames ∧ (after calls).pending = 0 := by
  have hcuts : Frame.framing.Cuts (fed calls) frames [] := by
    have h := Framing.cuts_flatten (F := Frame.framing) Frame.encodeFramed
      (fun f hf x => Frame.front_encodeFramed (hmax f hf) x) []
    rwa [List.append_nil, ← hfed] at h
  have hall : delivered calls = frames := by
    have hempty : Frame.framing.front [] = .more := Frame.front_of_short (b := []) (by decide)
    rw [(delivered_of_stopped hstop).1, Frame.greedy, hcuts.parse_of_more hempty]
  refine ⟨hall, ?_⟩
  have hheld := cuts_after calls
  rw [hall] at hheld
  rw [pending, hheld.unique hcuts]
  rfl

/-- The frames handed out, and the error or the wait they end in, are those of
the one-shot parse of the bytes, whatever the chunks were and whenever the
decoder was asked. -/
theorem chunking_independent :
    (∀ calls later, delivered calls <+: (Frame.greedy (fed calls ++ later)).1) ∧
    (∀ calls, (∀ f, (after calls).nextFrame.1 ≠ .ok (some f)) →
      delivered calls = (Frame.greedy (fed calls)).1 ∧
        (after calls).nextFrame.1 = ending (Frame.greedy (fed calls)).2) ∧
    (∀ calls, ∃ k, ∀ f,
      (after (calls ++ List.replicate k .nextFrame)).nextFrame.1 ≠ .ok (some f)) ∧
    (∀ frames calls, (∀ f ∈ frames, f.encode.length ≤ MAX_FRAME_BYTES) →
      fed calls = (frames.map Frame.encodeFramed).flatten →
      ∃ k, delivered (calls ++ List.replicate k .nextFrame) = frames ∧
        (after (calls ++ List.replicate k .nextFrame)).pending = 0) ∧
    (∀ calls, (history calls).Pairwise fun x y => ∀ e, x.output = .next (.error e) →
      y.event = .nextFrame → y.output = .next (.error e)) ∧
    (∀ calls, ∀ x ∈ history calls, x.output = .next (.ok none) →
      x.after.pending < 4 + MAX_FRAME_BYTES) := by
  refine ⟨fun calls later => (cuts_after calls).prefix_parse later,
    fun calls h => delivered_of_stopped h, polls_stop, fun frames calls hmax hfed => ?_,
    fun calls => (error_kept calls).2, fun calls x hx hout => ?_⟩
  · obtain ⟨k, hk⟩ := polls_stop calls
    exact ⟨k, delivered_of_frames hmax (by rw [fed_polls, hfed]) hk⟩
  · have hstep := step_of_mem_trace hx
    obtain ⟨d, c, o, d'⟩ := x
    simp only at hout hstep ⊢
    subst hout
    cases c with
    | feed chunk => cases hstep
    | nextFrame =>
      simp only [call, Option.some.injEq, Prod.mk.injEq, Answer.next.injEq] at hstep
      rw [← hstep.1]
      exact pending_lt_of_waiting hstep.2

end FrameDecoder

end Session
end IndieWorker
