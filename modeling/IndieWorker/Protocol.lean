import Mathlib.Data.UInt

/-!
# The stateful avenues

What `src/protocol/mod.rs` shares between the TCP framing and the websocket
sequencing.
-/

namespace IndieWorker
namespace Protocol

abbrev Bytes := List UInt8

/-- The hard ceiling on one decoded payload, on either avenue. -/
def MAX_FRAME_BYTES : Nat := 1048576

/-- Everything that can go wrong framing or deframing. -/
inductive ProtocolError where
  | frameTooLarge (declared limit : Nat)
  | emptyFrame
  | notUtf8
  | outOfOrder (expected got : UInt64)
  deriving DecidableEq, Repr

/-- `Display` of an error. -/
def ProtocolError.message : ProtocolError → String
  | frameTooLarge declared limit =>
    "frame declares " ++ toString declared ++ " bytes, limit is " ++ toString limit
  | emptyFrame => "frame is empty"
  | notUtf8 => "frame payload is not UTF-8"
  | outOfOrder expected got => "expected sequence " ++ toString expected ++ ", got " ++ toString got

end Protocol
end IndieWorker
