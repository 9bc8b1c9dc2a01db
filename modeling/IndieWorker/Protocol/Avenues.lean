import IndieWorker.Lib.Lockstep
import IndieWorker.Lib.Text
import IndieWorker.Protocol.Schedule
import IndieWorker.Session.RoundTrip

/-!
# One discipline on two avenues

`accept_text` and `accept_binary` of `src/protocol/ws.rs` beside `next_text` of
`src/protocol/tcp.rs`.  A websocket hands over whole messages, and a connection bytes in
any pieces; what the one avenue takes the other takes too.
-/

namespace IndieWorker
namespace Protocol

open BigEndian Polling Run

/-! ## The websocket avenue -/

/-- Check an inbound text frame before anything tries to parse it. -/
def acceptTextWithLimit (frame : String) (limit : Nat) : Except ProtocolError String :=
  if Text.trim frame.toList = [] then .error .emptyFrame
  else if frame.utf8ByteSize > limit then .error (.frameTooLarge frame.utf8ByteSize limit)
  else .ok frame

def acceptText (frame : String) : Except ProtocolError String :=
  acceptTextWithLimit frame MAX_FRAME_BYTES

/-- Check an inbound binary frame, which must still be UTF-8. -/
def acceptBinary (frame : Bytes) : Except ProtocolError String :=
  if frame = [] then .error .emptyFrame
  else if frame.length > MAX_FRAME_BYTES then .error (.frameTooLarge frame.length MAX_FRAME_BYTES)
  else
    match String.fromUTF8? ⟨frame.toArray⟩ with
    | some text => .ok text
    | none => .error .notUtf8

/-- The binary frames of a connection that is closed at the first one refused: the texts,
and the error. -/
def accepted : List Bytes → List String × Option ProtocolError
  | [] => ([], none)
  | frame :: frames =>
    match acceptBinary frame with
    | .ok text => (text :: (accepted frames).1, (accepted frames).2)
    | .error e => ([], some e)

/-! ## The TCP avenue -/

/-- A payload behind its length, whether or not the other end will take it. -/
def wire (payload : Bytes) : Bytes := beBytes HEADER_BYTES payload.length ++ payload

/-- The front of a stream of texts. -/
def textFront (limit : Nat) (b : Bytes) : Front String ProtocolError :=
  match front limit b with
  | .more => .more
  | .fail e => .fail e
  | .item payload n =>
    match String.fromUTF8? ⟨payload.toArray⟩ with
    | some text => .item text n
    | none => .fail .notUtf8

section TextFront

variable {limit : Nat} {b : Bytes}

theorem textFront_of_more (h : front limit b = .more) : textFront limit b = .more := by
  rw [textFront, h]

theorem textFront_of_fail {e : ProtocolError} (h : front limit b = .fail e) :
    textFront limit b = .fail e := by
  rw [textFront, h]

theorem textFront_of_text {payload : Bytes} {n : Nat} {text : String}
    (h : front limit b = .item payload n)
    (htext : String.fromUTF8? ⟨payload.toArray⟩ = some text) :
    textFront limit b = .item text n := by
  rw [textFront, h]
  dsimp only
  rw [htext]

theorem textFront_of_junk {payload : Bytes} {n : Nat} (h : front limit b = .item payload n)
    (hjunk : String.fromUTF8? ⟨payload.toArray⟩ = none) :
    textFront limit b = .fail .notUtf8 := by
  rw [textFront, h]
  dsimp only
  rw [hjunk]

theorem textFront_item {text : String} {n : Nat} (h : textFront limit b = .item text n) :
    ∃ payload, front limit b = .item payload n := by
  rcases hfront : front limit b with _ | ⟨payload, m⟩ | e
  · rw [textFront_of_more hfront] at h
    cases h
  · rcases htext : String.fromUTF8? ⟨payload.toArray⟩ with _ | t
    · rw [textFront_of_junk hfront htext] at h
      cases h
    · rw [textFront_of_text hfront htext] at h
      cases h
      exact ⟨payload, rfl⟩
  · rw [textFront_of_fail hfront] at h
    cases h

/-- A front that is decided stays as it is. -/
theorem textFront_append (h : textFront limit b ≠ .more) (x : Bytes) :
    textFront limit (b ++ x) = textFront limit b := by
  have hfront : front limit b ≠ .more := fun hmore => h (textFront_of_more hmore)
  rw [textFront, textFront, front_append hfront x]

end TextFront

/-- The framing of a connection that carries texts. -/
def textFraming (limit : Nat) : Framing UInt8 String ProtocolError where
  front := textFront limit
  item_pos h := by
    obtain ⟨payload, hfront⟩ := textFront_item h
    exact (framing limit).item_pos hfront
  item_le h := by
    obtain ⟨payload, hfront⟩ := textFront_item h
    exact (framing limit).item_le hfront
  item_append x h := by rw [textFront_append (by rw [h]; nofun) x, h]
  fail_append x h := by rw [textFront_append (by rw [h]; nofun) x, h]

namespace Decoder

/-- What a caller that asks for texts does with the decoder. -/
def textCall (d : Decoder) : Call UInt8 → Option (Decoder × Answer String ProtocolError)
  | .feed chunk => some (d.feed chunk, .fed)
  | .poll => some (d.nextText.2, .polled d.nextText.1)

def texts (calls : List (Call UInt8)) :
    List (Entry Decoder (Call UInt8) (Answer String ProtocolError)) :=
  trace textCall .new calls

/-- The decoder after a schedule. -/
def afterTexts (calls : List (Call UInt8)) : Decoder := final textCall .new calls

end Decoder

/-! ## Both at once -/

/-- The decoder is the polled decoder of its texts.  What it still holds once it has failed
does not matter. -/
structure Alike (limit : Nat) (d : Decoder) (s : State UInt8) : Prop where
  limit : d.limit = limit
  poisoned : d.poisoned = s.poisoned
  buffer : d.poisoned = false → d.buffer = s.buffer

/-- The polled decoder of the texts. -/
def polled (limit : Nat) (s : State UInt8) (c : Call UInt8) :
    Option (State UInt8 × Answer String ProtocolError) := some (next (textFraming limit) s c)

theorem polled_total (limit : Nat) (s : State UInt8) (c : Call UInt8) :
    (polled limit s c).isSome := rfl

theorem polled_refines (limit : Nat) :
    Refines (textFraming limit) (polled limit) (fun _ => True) id :=
  ⟨fun _ _ _ => ⟨_, rfl, trivial, rfl⟩⟩

theorem nextText_of_nextFrame_none {d d' : Decoder} (h : d.nextFrame = (.ok none, d')) :
    d.nextText = (.ok none, d') := by
  rw [Decoder.nextText, h]

theorem nextText_of_nextFrame_error {d d' : Decoder} {e : ProtocolError}
    (h : d.nextFrame = (.error e, d')) : d.nextText = (.error e, d') := by
  rw [Decoder.nextText, h]

theorem nextText_of_text {d d' : Decoder} {payload : Bytes} {text : String}
    (h : d.nextFrame = (.ok (some payload), d'))
    (htext : String.fromUTF8? ⟨payload.toArray⟩ = some text) :
    d.nextText = (.ok (some text), d') := by
  rw [Decoder.nextText, h]
  dsimp only
  rw [htext]

theorem nextText_of_junk {d d' : Decoder} {payload : Bytes}
    (h : d.nextFrame = (.ok (some payload), d'))
    (hjunk : String.fromUTF8? ⟨payload.toArray⟩ = none) :
    d.nextText = (.error .notUtf8, { d' with poisoned := true }) := by
  rw [Decoder.nextText, h]
  dsimp only
  rw [hjunk]

theorem alike_poll {limit : Nat} {d : Decoder} {s : State UInt8} (h : Alike limit d s) :
    (Answer.polled d.nextText.1 : Answer String ProtocolError) =
        (next (textFraming limit) s .poll).2 ∧
      Alike limit d.nextText.2 (next (textFraming limit) s .poll).1 := by
  have hlimit := h.limit
  have hpoisoned := h.poisoned
  rcases hdead : s.poisoned with _ | _
  · rw [hdead] at hpoisoned
    have hbuffer := h.buffer hpoisoned
    have hframe := Decoder.nextFrame_live hpoisoned
    have hfront : (textFraming limit).front s.buffer = textFront d.limit d.buffer := by
      rw [hlimit, hbuffer]
      rfl
    unfold next
    dsimp only
    rw [hdead, if_neg Bool.false_ne_true, hfront]
    rcases hcut : front d.limit d.buffer with _ | ⟨payload, n⟩ | e
    · rw [hcut] at hframe
      rw [nextText_of_nextFrame_none hframe, textFront_of_more hcut]
      exact ⟨rfl, h⟩
    · rw [hcut] at hframe
      rcases htext : String.fromUTF8? ⟨payload.toArray⟩ with _ | text
      · rw [nextText_of_junk hframe htext, textFront_of_junk hcut htext]
        exact ⟨rfl, hlimit, rfl, fun hlive => by cases hlive⟩
      · rw [nextText_of_text hframe htext, textFront_of_text hcut htext]
        exact ⟨rfl, hlimit, hpoisoned, fun _ => congrArg (List.drop n) hbuffer⟩
    · rw [hcut] at hframe
      rw [nextText_of_nextFrame_error hframe, textFront_of_fail hcut]
      exact ⟨rfl, hlimit, rfl, fun hlive => by cases hlive⟩
  · rw [hdead] at hpoisoned
    unfold next
    dsimp only
    rw [hdead, if_pos rfl, nextText_of_nextFrame_none (Decoder.nextFrame_poisoned hpoisoned)]
    exact ⟨rfl, h⟩

theorem alike_simulates (limit : Nat) :
    Simulates Decoder.textCall (polled limit) (Alike limit) := by
  intro d s c h
  cases c with
  | feed chunk =>
    refine ⟨d.feed chunk, _, .fed, rfl, rfl, ?_⟩
    have hpoisoned := h.poisoned
    unfold Decoder.feed
    rcases hdead : s.poisoned with _ | _
    · rw [hdead] at hpoisoned
      rw [hpoisoned, if_neg Bool.false_ne_true, if_neg Bool.false_ne_true]
      refine ⟨h.limit, rfl, fun _ => ?_⟩
      dsimp only
      rw [h.buffer hpoisoned]
    · rw [hdead] at hpoisoned
      rw [hpoisoned, if_pos rfl, if_pos rfl]
      exact h
  | poll =>
    obtain ⟨houtput, halike⟩ := alike_poll h
    exact ⟨_, _, _, rfl, by rw [houtput]; rfl, halike⟩

/-! ## The same frames on both -/

section Wire

variable {limit : Nat} {payload : Bytes}

theorem wire_length (payload : Bytes) : (wire payload).length = HEADER_BYTES + payload.length := by
  rw [wire, List.length_append, beBytes_length]

theorem declared_wire (hwidth : payload.length < 2 ^ 32) (x : Bytes) :
    declared (wire payload ++ x) = payload.length := by
  have hheader : (beBytes HEADER_BYTES payload.length).length = HEADER_BYTES := beBytes_length _ _
  rw [declared, wire, List.append_assoc, List.take_left' hheader, beValue_beBytes hwidth]

/-- The front of a connection is what the websocket says of its first frame. -/
theorem textFront_wire_ok {text : String} (hwidth : payload.length < 2 ^ 32)
    (h : acceptBinary payload = .ok text) (x : Bytes) :
    textFront MAX_FRAME_BYTES (wire payload ++ x) = .item text (wire payload).length := by
  unfold acceptBinary at h
  split at h
  · cases h
  · rename_i hne
    split at h
    · cases h
    · rename_i hlimit
      have hencode : encodeWithLimit payload MAX_FRAME_BYTES = .ok (wire payload) :=
        encodeWithLimit_eq_ok_iff.mpr ⟨hne, Nat.not_lt.mp hlimit, hwidth, rfl⟩
      rcases htext : String.fromUTF8? ⟨payload.toArray⟩ with _ | t
      · rw [htext] at h
        cases h
      · rw [htext] at h
        cases h
        exact textFront_of_text (front_encode hencode x) htext

theorem textFront_wire_error {e : ProtocolError} (hwidth : payload.length < 2 ^ 32)
    (h : acceptBinary payload = .error e) (x : Bytes) :
    textFront MAX_FRAME_BYTES (wire payload ++ x) = .fail e := by
  have hlonger : ¬ (wire payload ++ x).length < HEADER_BYTES := by
    rw [List.length_append, wire_length]
    omega
  have hdeclared := declared_wire hwidth x
  unfold acceptBinary at h
  split at h
  · rename_i hnil
    cases h
    refine textFront_of_fail ?_
    rw [front, if_neg hlonger, hdeclared, hnil]
    rfl
  · rename_i hne
    have hpos : payload.length ≠ 0 := fun hzero => hne (List.length_eq_zero_iff.mp hzero)
    split at h
    · rename_i hlimit
      cases h
      refine textFront_of_fail ?_
      rw [front, if_neg hlonger, hdeclared, if_neg hpos, if_pos hlimit]
    · rename_i hlimit
      have hencode : encodeWithLimit payload MAX_FRAME_BYTES = .ok (wire payload) :=
        encodeWithLimit_eq_ok_iff.mpr ⟨hne, Nat.not_lt.mp hlimit, hwidth, rfl⟩
      rcases htext : String.fromUTF8? ⟨payload.toArray⟩ with _ | t
      · rw [htext] at h
        cases h
        exact textFront_of_junk (front_encode hencode x) htext
      · rw [htext] at h
        cases h

theorem parse_wire {payloads : List Bytes} (hwidth : ∀ p ∈ payloads, p.length < 2 ^ 32) :
    (textFraming MAX_FRAME_BYTES).parse (payloads.flatMap wire) = accepted payloads := by
  induction payloads with
  | nil => exact Framing.parse_more rfl
  | cons payload payloads ih =>
    obtain ⟨hfirst, hrest⟩ := List.forall_mem_cons.mp hwidth
    rw [List.flatMap_cons, accepted]
    rcases haccept : acceptBinary payload with e | text
    · exact Framing.parse_fail (textFront_wire_error hfirst haccept _)
    · rw [Framing.parse_item (textFront_wire_ok hfirst haccept _), List.drop_left, ih hrest]

end Wire

theorem texts_eq (calls : List (Call UInt8)) :
    delivered (Decoder.texts calls) =
        delivered (trace (polled MAX_FRAME_BYTES) ⟨[], false⟩ calls) ∧
      raised (Decoder.texts calls) = raised (trace (polled MAX_FRAME_BYTES) ⟨[], false⟩ calls) ∧
        Alike MAX_FRAME_BYTES (Decoder.afterTexts calls)
          (final (polled MAX_FRAME_BYTES) ⟨[], false⟩ calls) := by
  have hstart : Alike MAX_FRAME_BYTES .new ⟨[], false⟩ := ⟨rfl, rfl, fun _ => rfl⟩
  obtain ⟨houtputs, hfinal⟩ := (alike_simulates MAX_FRAME_BYTES).run hstart calls
  obtain ⟨hdelivered, hraised⟩ := delivered_congr houtputs
  exact ⟨hdelivered, hraised, hfinal⟩

theorem drained_iff (calls : List (Call UInt8)) :
    Drained (polled MAX_FRAME_BYTES) (final (polled MAX_FRAME_BYTES) ⟨[], false⟩ calls) ↔
      ∀ text, (Decoder.afterTexts calls).nextText.1 ≠ .ok (some text) := by
  have halike := (texts_eq calls).2.2
  have houtput := (alike_poll halike).1
  constructor
  · intro hdrained text htext
    rw [htext] at houtput
    exact hdrained _ text (by rw [polled, houtput])
  · intro hnone t text hpoll
    rw [polled, Option.some.injEq] at hpoll
    rw [hpoll] at houtput
    exact hnone text (Answer.polled.inj houtput)

theorem acceptText_eq (text : String) : acceptText text =
    if Text.trim text.toList = [] then .error .emptyFrame
    else acceptBinary (Session.asBytes text) := by
  have hlength : (Session.asBytes text).length = text.utf8ByteSize := rfl
  unfold acceptText acceptTextWithLimit
  by_cases hblank : Text.trim text.toList = []
  · rw [if_pos hblank, if_pos hblank]
  · have hne : Session.asBytes text ≠ [] := by
      intro hnil
      rw [hnil] at hlength
      have hempty : text = "" := String.utf8ByteSize_eq_zero_iff.mp hlength.symm
      exact hblank (by rw [hempty]; rfl)
    unfold acceptBinary
    rw [if_neg hblank, if_neg hblank, if_neg hne, hlength]
    rw [Session.Reader.fromUTF8?_eq_some_iff.mpr rfl]

/-- What a client says once it says alike on both avenues.  The texts that a connection
hands out, and the error that closes it, are those of its frames as websocket messages,
however the bytes are cut and whenever it is asked; and a text frame is taken as its
bytes are, unless it is blank. -/
theorem avenues_agree :
    (∀ (payloads : List Bytes) (calls : List (Call UInt8)), (∀ p ∈ payloads, p.length < 2 ^ 32) →
      (∀ later, fed calls ++ later = payloads.flatMap wire →
        delivered (Decoder.texts calls) <+: (accepted payloads).1) ∧
      (fed calls = payloads.flatMap wire →
        (∀ text, (Decoder.afterTexts calls).nextText.1 ≠ .ok (some text)) →
          delivered (Decoder.texts calls) = (accepted payloads).1 ∧
            raised (Decoder.texts (calls ++ [.poll])) = (accepted payloads).2)) ∧
    (∀ calls, ∃ k, ∀ text,
      (Decoder.afterTexts (calls ++ List.replicate k .poll)).nextText.1 ≠ .ok (some text)) ∧
    ∀ text : String, acceptText text =
      if Text.trim text.toList = [] then .error .emptyFrame
      else acceptBinary (Session.asBytes text) := by
  refine ⟨fun payloads calls hwidth => ⟨fun later hfed => ?_, fun hfed hstop => ?_⟩,
    fun calls => ?_, acceptText_eq⟩
  · have hprefix := delivered_prefix (polled_refines MAX_FRAME_BYTES)
      (polled_total MAX_FRAME_BYTES) trivial rfl calls later
    rw [hfed, parse_wire hwidth] at hprefix
    rw [(texts_eq calls).1]
    exact hprefix
  · have hall := delivered_of_drained (polled_refines MAX_FRAME_BYTES)
      (polled_total MAX_FRAME_BYTES) trivial rfl calls ((drained_iff calls).mpr hstop)
    rw [hfed, parse_wire hwidth] at hall
    rw [(texts_eq calls).1, (texts_eq (calls ++ [Call.poll])).2.1]
    exact hall
  · obtain ⟨k, hk⟩ := polls_drain (polled_refines MAX_FRAME_BYTES)
      (polled_total MAX_FRAME_BYTES) trivial rfl calls
    exact ⟨k, (drained_iff _).mp hk⟩

/-- An empty frame closes a connection with the error of an empty message. -/
theorem avenues_agree_empty_frame :
    raised (Decoder.texts [.feed [0, 0, 0, 0], .poll]) = some .emptyFrame :=
  ((avenues_agree.1 [[]] [.feed [0, 0, 0, 0]] (by decide)).2 (by decide)
    fun text htext => by cases htext).2

end Protocol
end IndieWorker
