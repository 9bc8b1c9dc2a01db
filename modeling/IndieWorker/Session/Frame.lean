import IndieWorker.Lib.BigEndian
import IndieWorker.Lib.Reader

/-!
# Session frames

The frame vocabulary of `src/runtime/session.rs` and its binary encoding.  A
`Vec<u8>` is a list of bytes, and a Rust `String` is a Lean `String`, whose bytes
are valid UTF-8 by construction.
-/

namespace IndieWorker
namespace Session

open BigEndian

abbrev Bytes := List UInt8

/-- Largest frame we will encode or accept, on either transport. -/
def MAX_FRAME_BYTES : Nat := 1024 * 1024

abbrev Stream := String

/-- Monotonic, per-stream, starting at 1. -/
abbrev Sequence := UInt64

inductive ErrorCode where
  | unsupportedVersion
  | unauthorized
  | forbidden
  | protocol
  | rateLimited
  | notFound
  | goingAway
  | timeout
  | internal
  deriving DecidableEq, Repr

namespace ErrorCode

def tag : ErrorCode → UInt8
  | .unsupportedVersion => 1
  | .unauthorized => 2
  | .forbidden => 3
  | .protocol => 4
  | .rateLimited => 5
  | .notFound => 6
  | .goingAway => 7
  | .timeout => 8
  | .internal => 9

def fromTag : UInt8 → Option ErrorCode
  | 1 => some .unsupportedVersion
  | 2 => some .unauthorized
  | 3 => some .forbidden
  | 4 => some .protocol
  | 5 => some .rateLimited
  | 6 => some .notFound
  | 7 => some .goingAway
  | 8 => some .timeout
  | 9 => some .internal
  | _ => none

theorem fromTag_eq_some_iff {t : UInt8} {c : ErrorCode} : fromTag t = some c ↔ t = c.tag := by
  constructor
  · intro h
    unfold fromTag at h
    split at h <;> cases h <;> rfl
  · intro heq
    subst heq
    cases c <;> rfl

end ErrorCode

/-- What either side can say. -/
inductive Frame where
  | hello (version : UInt16) (resume : Option String)
  | welcome (session : String) (resumed : Bool) (heartbeatSeconds : UInt32)
  | ping (nonce : UInt64)
  | pong (nonce : UInt64)
  | subscribe (stream : Stream) («from» : Sequence) (credit : UInt32)
  | unsubscribe (stream : Stream)
  | credit (stream : Stream) (additional : UInt32)
  | event (stream : Stream) (sequence : Sequence) (payload : Bytes)
  | lagged (stream : Stream) (skippedTo : Sequence)
  | command (id : UInt64) (verb : String) (payload : Bytes)
  | ack (id : UInt64) (payload : Bytes)
  | error (id : Option UInt64) (code : ErrorCode) (message : String)
  | close (code : ErrorCode) (message : String)
  deriving DecidableEq, Repr

/-- Why a byte sequence was not a frame. -/
inductive CodecError where
  | incomplete
  | tooLarge (declared : Nat)
  | malformed
  deriving DecidableEq, Repr

/-! ## Writing -/

def putU16 (value : UInt16) : Bytes := beBytes 2 value.toNat

def putU32 (value : UInt32) : Bytes := beBytes 4 value.toNat

def putU64 (value : UInt64) : Bytes := beBytes 8 value.toNat

/-- `u32::try_from(n).unwrap_or(u32::MAX)`. -/
def u32OrMax (n : Nat) : UInt32 :=
  if n < 2 ^ 32 then UInt32.ofNat n else UInt32.ofNat (2 ^ 32 - 1)

def putBytes (value : Bytes) : Bytes := putU32 (u32OrMax value.length) ++ value

def asBytes (value : String) : Bytes := value.toUTF8.data.toList

def putStr (value : String) : Bytes := putBytes (asBytes value)

def putOptStr : Option String → Bytes
  | some v => 1 :: putStr v
  | none => [0]

def putOptU64 : Option UInt64 → Bytes
  | some id => 1 :: putU64 id
  | none => [0]

namespace Frame

def tag : Frame → UInt8
  | .hello .. => 1
  | .welcome .. => 2
  | .ping .. => 3
  | .pong .. => 4
  | .subscribe .. => 5
  | .unsubscribe .. => 6
  | .credit .. => 7
  | .event .. => 8
  | .lagged .. => 9
  | .command .. => 10
  | .ack .. => 11
  | .error .. => 12
  | .close .. => 13

/-- The encoding after the tag. -/
def encodeFields : Frame → Bytes
  | .hello version resume => putU16 version ++ putOptStr resume
  | .welcome session resumed heartbeatSeconds =>
    putStr session ++ [resumed.toUInt8] ++ putU32 heartbeatSeconds
  | .ping nonce | .pong nonce => putU64 nonce
  | .subscribe stream start credits => putStr stream ++ putU64 start ++ putU32 credits
  | .unsubscribe stream => putStr stream
  | .credit stream additional => putStr stream ++ putU32 additional
  | .event stream sequence payload => putStr stream ++ putU64 sequence ++ putBytes payload
  | .lagged stream skippedTo => putStr stream ++ putU64 skippedTo
  | .command id verb payload => putU64 id ++ putStr verb ++ putBytes payload
  | .ack id payload => putU64 id ++ putBytes payload
  | .error id code message => putOptU64 id ++ [code.tag] ++ putStr message
  | .close code message => [code.tag] ++ putStr message

/-- The frame body (no length prefix). -/
def encode (f : Frame) : Bytes := f.tag :: f.encodeFields

/-- With the 4-byte big-endian length prefix used on the TCP transport. -/
def encodeFramed (f : Frame) : Bytes := putU32 (u32OrMax f.encode.length) ++ f.encode

end Frame

/-! ## Reading -/

/-- A position in a byte slice.  It never passes the end. -/
structure Reader where
  bytes : Bytes
  pos : Nat
  bound : pos ≤ bytes.length

namespace Reader

def new (bytes : Bytes) : Reader := ⟨bytes, 0, Nat.zero_le _⟩

abbrev M := StateT Reader (Except CodecError)

/-- The end `at + n` overflows only past the end of any slice, so the checked
addition and the range check are one test. -/
def take (n : Nat) : M Bytes := fun r =>
  if h : r.pos + n ≤ r.bytes.length then
    .ok ((r.bytes.drop r.pos).take n, ⟨r.bytes, r.pos + n, h⟩)
  else
    .error .malformed

def u8 : M UInt8 := do
  let b ← take 1
  return b.headD 0

def u16 : M UInt16 := do
  let b ← take 2
  return UInt16.ofNat (beValue b)

def u32 : M UInt32 := do
  let b ← take 4
  return UInt32.ofNat (beValue b)

def u64 : M UInt64 := do
  let b ← take 8
  return UInt64.ofNat (beValue b)

def bytesField : M Bytes := do
  let len ← u32
  take len.toNat

def string : M String := do
  let raw ← bytesField
  match String.fromUTF8? ⟨raw.toArray⟩ with
  | some s => return s
  | none => throw .malformed

def optString : M (Option String) := do
  match ← u8 with
  | 0 => return none
  | 1 => return some (← string)
  | _ => throw .malformed

def bool : M Bool := do
  match ← u8 with
  | 0 => return false
  | 1 => return true
  | _ => throw .malformed

def optU64 : M (Option UInt64) := do
  match ← u8 with
  | 0 => return none
  | 1 => return some (← u64)
  | _ => throw .malformed

def errorCode : M ErrorCode := do
  match ErrorCode.fromTag (← u8) with
  | some code => return code
  | none => throw .malformed

def done (r : Reader) : Bool := r.pos == r.bytes.length

end Reader

namespace Frame

open Reader in
/-- The body of a frame with a given tag. -/
def decodeFields : UInt8 → Reader.M Frame
  | 1 => do return .hello (← u16) (← optString)
  | 2 => do return .welcome (← string) (← bool) (← u32)
  | 3 => do return .ping (← u64)
  | 4 => do return .pong (← u64)
  | 5 => do return .subscribe (← string) (← u64) (← u32)
  | 6 => do return .unsubscribe (← string)
  | 7 => do return .credit (← string) (← u32)
  | 8 => do return .event (← string) (← u64) (← bytesField)
  | 9 => do return .lagged (← string) (← u64)
  | 10 => do return .command (← u64) (← string) (← bytesField)
  | 11 => do return .ack (← u64) (← bytesField)
  | 12 => do return .error (← optU64) (← errorCode) (← string)
  | 13 => do return .close (← errorCode) (← string)
  | _ => throw .malformed

/-- Decode a frame body (no length prefix).  Trailing bytes are an error. -/
def decode (bytes : Bytes) : Except CodecError Frame := do
  let (frame, r) ← (do decodeFields (← Reader.u8) : Reader.M Frame) (Reader.new bytes)
  if !r.done then throw .malformed
  return frame

/-- Read one length-prefixed frame from the front of `buffer`, with the number
of bytes it consumed. -/
def decodeFramed (buffer : Bytes) : Except CodecError (Frame × Nat) :=
  if buffer.length < 4 then
    .error .incomplete
  else
    let declared := beValue (buffer.take 4)
    if declared > MAX_FRAME_BYTES then
      .error (.tooLarge declared)
    else
      let stop := 4 + declared
      if buffer.length < stop then
        .error .incomplete
      else do
        return (← decode ((buffer.take stop).drop 4), stop)

end Frame

end Session
end IndieWorker
