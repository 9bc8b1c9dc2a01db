import IndieWorker.Protocol.Schedule

/-!
# The TypeScript frame decoder

`FrameDecoder` of `typescript/src/frames.mjs` beside `Decoder` of
`src/protocol/tcp.rs`, under any sequence of calls.  The two part where a payload
pulled as text is not UTF-8 or begins with a byte order mark.
-/

namespace IndieWorker
namespace TypeScript

open BigEndian Protocol Run

/-- What a call throws. -/
inductive Thrown where
  | protocolError (kind detail : String)
  | typeError
  deriving DecidableEq, Repr

/-- The character U+FEFF, which marks the byte order when a text begins with it. -/
def BOM : Char := '\uFEFF'

/-- `new TextDecoder('utf-8', { fatal: true }).decode(payload)`: a byte order
mark at the front is not part of the text. -/
def decodeFatal (payload : Bytes) : Except Thrown String :=
  match String.fromUTF8? ⟨payload.toArray⟩ with
  | none => .error .typeError
  | some text => .ok (if text.toList.head? = some BOM then .ofList text.toList.tail else text)

structure FrameDecoder where
  buffer : Bytes
  limit : Nat
  poisoned : Bool
  deriving DecidableEq, Repr

namespace FrameDecoder

def new (limit : Nat) : FrameDecoder := ⟨[], limit, false⟩

def feed (d : FrameDecoder) (chunk : Bytes) : FrameDecoder :=
  if d.poisoned then d else { d with buffer := d.buffer ++ chunk }

def next (d : FrameDecoder) : Except Thrown (Option Bytes) × FrameDecoder :=
  if d.poisoned ∨ d.buffer.length < HEADER_BYTES then (.ok none, d)
  else
    let declared := beValue (d.buffer.take HEADER_BYTES)
    if declared = 0 then
      (.error (.protocolError "empty-frame" "frame is empty"), { d with poisoned := true })
    else if declared > d.limit then
      (.error (.protocolError "frame-too-large"
        ("frame declares " ++ toString declared ++ " bytes, limit is " ++ toString d.limit)),
        { d with poisoned := true })
    else if d.buffer.length < HEADER_BYTES + declared then (.ok none, d)
    else
      (.ok (some ((d.buffer.take (HEADER_BYTES + declared)).drop HEADER_BYTES)),
        { d with buffer := d.buffer.drop (HEADER_BYTES + declared) })

/-- Unlike `next`, a payload that is refused as text leaves the decoder as it
is. -/
def nextText (d : FrameDecoder) : Except Thrown (Option String) × FrameDecoder :=
  match d.next with
  | (.error e, d) => (.error e, d)
  | (.ok none, d) => (.ok none, d)
  | (.ok (some payload), d) => ((decodeFatal payload).map some, d)

end FrameDecoder

/-! ## Both decoders under one sequence of calls -/

inductive FrameCall where
  | feed (chunk : Bytes)
  | next
  | nextText
  deriving DecidableEq, Repr

inductive FrameAnswer (ε : Type) where
  | fed
  | payload (r : Except ε (Option Bytes))
  | text (r : Except ε (Option String))
  deriving DecidableEq

/-- What a caller can compare: the payload or text, or that an error was
raised. -/
def FrameAnswer.seen {ε : Type} : FrameAnswer ε → FrameAnswer Unit
  | .fed => .fed
  | .payload r => .payload (r.mapError fun _ => ())
  | .text r => .text (r.mapError fun _ => ())

def rustCall (d : Decoder) : FrameCall → Option (Decoder × FrameAnswer ProtocolError)
  | .feed chunk => some (d.feed chunk, .fed)
  | .next => some (d.nextFrame.2, .payload d.nextFrame.1)
  | .nextText => some (d.nextText.2, .text d.nextText.1)

def jsCall (d : FrameDecoder) : FrameCall → Option (FrameDecoder × FrameAnswer Thrown)
  | .feed chunk => some (d.feed chunk, .fed)
  | .next => some (d.next.2, .payload d.next.1)
  | .nextText => some (d.nextText.2, .text d.nextText.1)

/-- What a run shows: each answer, and whether the decoder is poisoned after
it. -/
def shows {σ ε : Type} (poisoned : σ → Bool) (h : List (Entry σ FrameCall (FrameAnswer ε))) :
    List (FrameAnswer Unit × Bool) :=
  h.map fun x => (x.output.seen, poisoned x.after)

def rustShows (limit : Nat) (calls : List FrameCall) : List (FrameAnswer Unit × Bool) :=
  shows Decoder.poisoned (trace rustCall (.withLimit limit) calls)

def jsShows (limit : Nat) (calls : List FrameCall) : List (FrameAnswer Unit × Bool) :=
  shows FrameDecoder.poisoned (trace jsCall (.new limit) calls)

/-- The payload is UTF-8 and its text does not begin with a byte order mark. -/
def IsPlain (payload : Bytes) : Prop :=
  ∃ text, String.fromUTF8? ⟨payload.toArray⟩ = some text ∧ text.toList.head? ≠ some BOM

/-- A call on `d` that pulls a payload as text pulls a plain one. -/
def PullsPlain (d : Decoder) (c : FrameCall) : Prop :=
  c = .nextText → d.poisoned = false → ∀ payload n,
    front d.limit d.buffer = .item payload n → IsPlain payload

/-! ## One call -/

/-- The TypeScript decoder in the state of the Rust one. -/
def twin (d : Decoder) : FrameDecoder := ⟨d.buffer, d.limit, d.poisoned⟩

/-- What the TypeScript decoder throws for an error of the framing. -/
def thrown (e : ProtocolError) : Thrown :=
  match e with
  | .frameTooLarge _ _ => .protocolError "frame-too-large" e.message
  | .emptyFrame => .protocolError "empty-frame" e.message
  | _ => .typeError

/-- `next` is `next_frame`, message for message. -/
theorem next_twin (d : Decoder) :
    (twin d).next = (d.nextFrame.1.mapError thrown, twin d.nextFrame.2) := by
  obtain ⟨b, limit, poisoned⟩ := d
  show FrameDecoder.next ⟨b, limit, poisoned⟩ = _
  unfold FrameDecoder.next Decoder.nextFrame
  by_cases hwait : poisoned = true ∨ b.length < HEADER_BYTES
  · rw [if_pos hwait, if_pos hwait]
    rfl
  · rw [if_neg hwait, if_neg hwait]
    dsimp only
    by_cases hzero : beValue (b.take HEADER_BYTES) = 0
    · rw [if_pos hzero, if_pos hzero]
      rfl
    · rw [if_neg hzero, if_neg hzero]
      by_cases hlimit : beValue (b.take HEADER_BYTES) > limit
      · rw [if_pos hlimit, if_pos hlimit]
        rfl
      · rw [if_neg hlimit, if_neg hlimit]
        by_cases hwhole : b.length < HEADER_BYTES + beValue (b.take HEADER_BYTES)
        · rw [if_pos hwhole, if_pos hwhole]
          rfl
        · rw [if_neg hwhole, if_neg hwhole]
          rfl

/-! ### Text -/

theorem isPlain_iff_of_text {payload : Bytes} {text : String}
    (h : String.fromUTF8? ⟨payload.toArray⟩ = some text) :
    IsPlain payload ↔ text.toList.head? ≠ some BOM := by
  constructor
  · intro ⟨text', h', hne⟩
    rw [h, Option.some.injEq] at h'
    rw [h']
    exact hne
  · intro hne
    exact ⟨text, h, hne⟩

theorem not_isPlain_of_invalid {payload : Bytes}
    (h : String.fromUTF8? ⟨payload.toArray⟩ = none) : ¬ IsPlain payload := by
  intro ⟨text, htext, _⟩
  rw [h] at htext
  cases htext

/-- A text without its byte order mark is another text. -/
theorem tail_ne_of_head {text : String} (h : text.toList.head? = some BOM) :
    text ≠ .ofList text.toList.tail := by
  intro heq
  have hlen := congrArg (fun s => s.toList.length) heq
  rcases htext : text.toList with _ | ⟨c, cs⟩
  · rw [htext] at h
    cases h
  · simp [htext] at hlen

theorem pullsPlain_iff {d : Decoder} {payload : Bytes} {n : Nat} (hlive : d.poisoned = false)
    (hfront : front d.limit d.buffer = .item payload n) :
    PullsPlain d .nextText ↔ IsPlain payload := by
  constructor
  · intro h
    exact h rfl hlive payload n hfront
  · intro h _ _ payload' n' hfront'
    rw [hfront] at hfront'
    cases hfront'
    exact h

/-- A call that pulls no payload pulls none that is not plain. -/
theorem pullsPlain_of_no_item {d : Decoder}
    (h : d.poisoned = false → ∀ payload n, front d.limit d.buffer ≠ .item payload n) :
    PullsPlain d .nextText :=
  fun _ hlive payload n hfront => absurd hfront (h hlive payload n)

/-- A text pulled by both is the same exactly when the payload is plain, and
then the decoders stay twins. -/
theorem nextText_twin (d : Decoder) :
    ((d.nextText.1.mapError (fun _ => ()), d.nextText.2.poisoned) =
        ((twin d).nextText.1.mapError (fun _ => ()), (twin d).nextText.2.poisoned) ↔
      PullsPlain d .nextText) ∧
    (PullsPlain d .nextText → (twin d).nextText.2 = twin d.nextText.2) := by
  unfold Decoder.nextText FrameDecoder.nextText
  rw [next_twin]
  rcases hpoisoned : d.poisoned with _ | _
  · rw [Decoder.nextFrame_live hpoisoned]
    rcases hfront : front d.limit d.buffer with _ | ⟨payload, n⟩ | e
    · have hplain := pullsPlain_of_no_item (d := d) fun _ _ _ => by rw [hfront]; nofun
      exact ⟨iff_of_true rfl hplain, fun _ => rfl⟩
    · rw [pullsPlain_iff hpoisoned hfront]
      rcases htext : String.fromUTF8? ⟨payload.toArray⟩ with _ | text
      -- Only the Rust decoder is poisoned by a payload that is not UTF-8.
      · have hplain := not_isPlain_of_invalid htext
        refine ⟨iff_of_false (fun h => ?_) hplain, fun h => absurd h hplain⟩
        simp [twin, hpoisoned, htext, Except.mapError] at h
      · rw [isPlain_iff_of_text htext]
        by_cases hbom : text.toList.head? = some BOM
        · refine ⟨iff_of_false (fun h => ?_) (not_not.mpr hbom), fun h => absurd hbom h⟩
          refine tail_ne_of_head hbom ?_
          simpa [twin, hpoisoned, htext, hbom, Except.mapError, Except.map, decodeFatal] using h
        · refine ⟨iff_of_true ?_ hbom, fun _ => ?_⟩
          · simp [twin, hpoisoned, htext, hbom, Except.mapError, Except.map, decodeFatal]
          · simp [twin, hpoisoned, htext, Except.mapError]
    · have hplain := pullsPlain_of_no_item (d := d) fun _ _ _ => by rw [hfront]; nofun
      exact ⟨iff_of_true rfl hplain, fun _ => rfl⟩
  · have hplain := pullsPlain_of_no_item (d := d) fun h => by rw [hpoisoned] at h; cases h
    rw [Decoder.nextFrame_poisoned hpoisoned]
    exact ⟨iff_of_true rfl hplain, fun _ => rfl⟩

/-! ## Any sequence of calls -/

/-- One call on twins shows the same exactly when what it pulls as text is
plain, and then leaves twins. -/
theorem call_twin (d : Decoder) (c : FrameCall) :
    ∃ d' a, rustCall d c = some (d', a) ∧ ∃ t b, jsCall (twin d) c = some (t, b) ∧
      ((a.seen, d'.poisoned) = (b.seen, t.poisoned) ↔ PullsPlain d c) ∧
      (PullsPlain d c → t = twin d') := by
  cases c with
  | feed chunk =>
    have hplain : PullsPlain d (.feed chunk) := fun h => by cases h
    have hfeed : (twin d).feed chunk = twin (d.feed chunk) := by
      unfold FrameDecoder.feed Decoder.feed
      rcases hpoisoned : d.poisoned with _ | _
      · simp [twin, hpoisoned]
      · simp [twin, hpoisoned]
    refine ⟨_, _, rfl, _, _, rfl, ?_, fun _ => hfeed⟩
    rw [hfeed]
    exact iff_of_true rfl hplain
  | next =>
    have hplain : PullsPlain d .next := fun h => by cases h
    refine ⟨_, _, rfl, _, _, rfl, ?_, fun _ => by rw [next_twin]⟩
    rw [next_twin]
    refine iff_of_true ?_ hplain
    rcases hnext : d.nextFrame.1 with e | p
    · rfl
    · rfl
  | nextText =>
    obtain ⟨hshown, htwin⟩ := nextText_twin d
    refine ⟨_, _, rfl, _, _, rfl, ?_, htwin⟩
    rw [← hshown]
    simp only [FrameAnswer.seen, Prod.mk.injEq, FrameAnswer.text.injEq]

theorem shows_eq_iff (d : Decoder) (calls : List FrameCall) :
    shows Decoder.poisoned (trace rustCall d calls) =
        shows FrameDecoder.poisoned (trace jsCall (twin d) calls) ↔
      ∀ x ∈ trace rustCall d calls, PullsPlain x.before x.event := by
  induction calls generalizing d with
  | nil => exact iff_of_true rfl (by simp [trace])
  | cons c calls ih =>
    obtain ⟨d', a, hrust, t, b, hjs, hshown, htwin⟩ := call_twin d c
    rw [trace_cons hrust, trace_cons hjs, List.forall_mem_cons]
    unfold shows at ih ⊢
    rw [List.map_cons, List.map_cons, List.cons.injEq, hshown]
    refine and_congr_right fun hplain => ?_
    rw [htwin hplain]
    exact ih d'

/-- The two decoders show the same at every call exactly when every payload
pulled as text is UTF-8 without a byte order mark in front. -/
theorem shows_alike_iff (limit : Nat) (calls : List FrameCall) :
    rustShows limit calls = jsShows limit calls ↔
      ∀ x ∈ trace rustCall (.withLimit limit) calls, PullsPlain x.before x.event :=
  shows_eq_iff (.withLimit limit) calls

/-- One byte that is not UTF-8 poisons one decoder only, and a byte order mark
is part of one text only. -/
theorem shows_differ :
    (rustShows 10 [.feed [0, 0, 0, 1, 0xFF], .nextText] ≠
      jsShows 10 [.feed [0, 0, 0, 1, 0xFF], .nextText]) ∧
    (rustShows 10 [.feed [0, 0, 0, 4, 0xEF, 0xBB, 0xBF, 0x61], .nextText] ≠
      jsShows 10 [.feed [0, 0, 0, 4, 0xEF, 0xBB, 0xBF, 0x61], .nextText]) := by
  decide

end TypeScript
end IndieWorker
