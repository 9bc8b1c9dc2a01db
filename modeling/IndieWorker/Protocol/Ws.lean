import IndieWorker.Lib.Counter
import IndieWorker.Lib.Overflow
import IndieWorker.Lib.Run
import IndieWorker.Protocol

/-!
# Websocket sequencing

`Sequencer` and `plan_resume` of `src/protocol/ws.rs`: the two ends number their
frames, and a client that reconnects continues where it stopped.
-/

namespace IndieWorker
namespace Protocol

open Run

/-- One direction of a connection's sequence numbering. -/
structure Sequencer where
  next : UInt64
  deriving DecidableEq, Repr

namespace Sequencer

def new : Sequencer := ⟨0⟩

def resumingAfter (lastSeen : UInt64) : Sequencer := ⟨saturatingAdd lastSeen 1⟩

/-- The sequence the next emitted frame will carry. -/
def peek (s : Sequencer) : UInt64 := s.next

def issue (s : Sequencer) : UInt64 × Sequencer := (s.next, ⟨saturatingAdd s.next 1⟩)

/-- Accept an inbound frame's sequence, requiring density. -/
def accept (s : Sequencer) (sequence : UInt64) : Except ProtocolError Unit × Sequencer :=
  if sequence ≠ s.next then (.error (.outOfOrder s.next sequence), s)
  else (.ok (), ⟨saturatingAdd s.next 1⟩)

end Sequencer

/-- What a server can do with a client's resume request. -/
inductive Resume where
  | replay (start through : UInt64)
  | upToDate
  | windowLost (earliestRetained : UInt64)
  deriving DecidableEq, Repr

/-- Decide how to answer a resume request. -/
def planResume (retained : UInt64 × UInt64) (clientLastSeen : Option UInt64) : Resume :=
  let (earliest, latest) := retained
  match clientLastSeen with
  | none => .replay earliest latest
  | some lastSeen =>
    if lastSeen ≥ latest then .upToDate
    else
      let wanted := saturatingAdd lastSeen 1
      if wanted < earliest then .windowLost earliest
      else .replay wanted latest

/-! ## Numbers below the maximum -/

theorem saturatingAdd_one {x : UInt64} (h : x.toNat < 2 ^ 64 - 1) :
    (saturatingAdd x 1).toNat = x.toNat + 1 := by
  rw [saturatingAdd_toNat, UInt64.toNat_one]
  omega

/-- `start..=through`. -/
def inclusive (start through : UInt64) : List UInt64 :=
  (List.range' start.toNat (through.toNat + 1 - start.toNat)).map UInt64.ofNat

theorem map_toNat_inclusive (start through : UInt64) :
    (inclusive start through).map UInt64.toNat =
      List.range' start.toNat (through.toNat + 1 - start.toNat) := by
  have hthrough := through.toNat_lt
  unfold inclusive
  rw [List.map_map]
  nth_rewrite 2 [← List.map_id (List.range' start.toNat (through.toNat + 1 - start.toNat))]
  refine List.map_congr_left fun x hx => ?_
  rw [List.mem_range'_1] at hx
  have hsize : x < 2 ^ 64 := by omega
  exact UInt64.toNat_ofNat_of_lt' hsize

theorem mem_inclusive {start through x : UInt64} :
    x ∈ inclusive start through ↔ start ≤ x ∧ x ≤ through := by
  have hmap : x ∈ inclusive start through ↔
      x.toNat ∈ (inclusive start through).map UInt64.toNat := by
    rw [List.mem_map_of_injective toNat_injective]
  rw [hmap, map_toNat_inclusive, List.mem_range'_1, UInt64.le_iff_toNat_le,
    UInt64.le_iff_toNat_le]
  omega

theorem inclusive_increasing (start through : UInt64) :
    (inclusive start through).Pairwise (· < ·) := by
  have hpairs := List.pairwise_lt_range' (s := start.toNat) (n := through.toNat + 1 - start.toNat) 1
  rw [← map_toNat_inclusive, List.pairwise_map] at hpairs
  exact hpairs.imp UInt64.lt_iff_toNat_lt.mpr

namespace Sequencer

theorem resumingAfter_next {lastSeen : UInt64} (h : lastSeen.toNat < 2 ^ 64 - 1) :
    (resumingAfter lastSeen).next.toNat = lastSeen.toNat + 1 :=
  saturatingAdd_one h

/-- The numbers of the next `n` frames sent. -/
def issued : Nat → Sequencer → List UInt64
  | 0, _ => []
  | n + 1, s => s.issue.1 :: issued n s.issue.2

theorem map_toNat_issued {n : Nat} {s : Sequencer} (h : s.next.toNat + n ≤ 2 ^ 64 - 1) :
    (issued n s).map UInt64.toNat = List.range' s.next.toNat n := by
  induction n generalizing s with
  | zero => rfl
  | succ n ih =>
    have hnext : s.issue.2.next.toNat = s.next.toNat + 1 := saturatingAdd_one (by omega)
    rw [issued, List.map_cons, ih (by omega), hnext, List.range'_succ]
    rfl

/-! ## What a client accepts -/

def call (s : Sequencer) (sequence : UInt64) :
    Option (Sequencer × Except ProtocolError Unit) :=
  some ((s.accept sequence).2, (s.accept sequence).1)

/-- The frames of a delivery that a client accepts, in order. -/
def accepted (s : Sequencer) (deliveries : List UInt64) : List UInt64 :=
  (trace call s deliveries).filterMap fun x =>
    match x.output with
    | .ok () => some x.event
    | .error _ => none

theorem accept_wanted (s : Sequencer) : s.accept s.next = (.ok (), ⟨saturatingAdd s.next 1⟩) :=
  if_neg (not_not.mpr rfl)

/-- A frame that is not the next one is rejected, and nothing moves. -/
theorem accept_other {s : Sequencer} {sequence : UInt64} (h : sequence ≠ s.next) :
    s.accept sequence = (.error (.outOfOrder s.next sequence), s) :=
  if_pos h

/-- A client takes what a counter takes. -/
theorem map_toNat_accepted {s : Sequencer} {deliveries : List UInt64}
    (h : ∀ d ∈ deliveries, d.toNat < 2 ^ 64 - 1) :
    (s.accepted deliveries).map UInt64.toNat =
      Counter.taken s.next.toNat (deliveries.map UInt64.toNat) := by
  induction deliveries generalizing s with
  | nil => rfl
  | cons d ds ih =>
    rw [List.forall_mem_cons] at h
    unfold accepted at ih ⊢
    rw [List.map_cons, trace_cons rfl]
    by_cases hd : d = s.next
    · subst hd
      have hnext := saturatingAdd_one h.1
      rw [Counter.taken_wanted, accept_wanted, ← hnext]
      simp only [List.filterMap_cons, List.map_cons]
      rw [ih h.2]
    · have hne : d.toNat ≠ s.next.toNat := fun heq => hd (UInt64.toNat_inj.mp heq)
      rw [Counter.taken_other hne, accept_other hd]
      simp only [List.filterMap_cons]
      exact ih h.2

end Sequencer
end Protocol
end IndieWorker
