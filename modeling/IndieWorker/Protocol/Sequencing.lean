import IndieWorker.Protocol.Ws

/-!
# A number is used once

Where the numbers of a connection come from, and how far they go.  At `u64::MAX` the
sequencer of `src/protocol/ws.rs` stops counting and goes on issuing and accepting.
-/

namespace IndieWorker
namespace Protocol

open Run

/-- How a sequencer was made. -/
inductive Start where
  | new
  | resumingAfter (lastSeen : UInt64)
  deriving DecidableEq, Repr

namespace Start

def sequencer : Start → Sequencer
  | new => .new
  | resumingAfter lastSeen => .resumingAfter lastSeen

/-- The first number that was never used. -/
def first : Start → Nat
  | new => 0
  | resumingAfter lastSeen => lastSeen.toNat + 1

theorem sequencer_next (s : Start) : s.sequencer.next.toNat = min s.first (2 ^ 64 - 1) := by
  cases s with
  | new => rfl
  | resumingAfter lastSeen =>
    show (saturatingAdd lastSeen 1).toNat = _
    rw [saturatingAdd_toNat, UInt64.toNat_one]
    rfl

theorem first_le (s : Start) : s.first ≤ 2 ^ 64 := by
  cases s with
  | new => exact Nat.zero_le _
  | resumingAfter lastSeen => exact lastSeen.toNat_lt

end Start

namespace Sequencer

/-- The numbers issued grow by one until they stop growing. -/
theorem map_toNat_issued_min (n : Nat) (s : Sequencer) :
    (issued n s).map UInt64.toNat =
      (List.range n).map fun i => min (s.next.toNat + i) (2 ^ 64 - 1) := by
  induction n generalizing s with
  | zero => rfl
  | succ n ih =>
    have hs := s.next.toNat_lt
    have hnext : s.issue.2.next.toNat = min (s.next.toNat + 1) (2 ^ 64 - 1) :=
      saturatingAdd_toNat s.next 1
    rw [issued, List.map_cons, ih, List.range_succ_eq_map, List.map_cons, List.map_map]
    congr 1
    · show s.next.toNat = min (s.next.toNat + 0) (2 ^ 64 - 1)
      omega
    · refine List.map_congr_left fun i _ => ?_
      rw [hnext]
      show min (min (s.next.toNat + 1) (2 ^ 64 - 1) + i) (2 ^ 64 - 1) =
        min (s.next.toNat + (i + 1)) (2 ^ 64 - 1)
      omega

/-- Numbers are issued once as long as the range lasts. -/
theorem issued_nodup_iff (n : Nat) (s : Sequencer) :
    (issued n s).Nodup ↔ n ≤ 1 ∨ s.next.toNat + n ≤ 2 ^ 64 := by
  have hs := s.next.toNat_lt
  rw [← List.nodup_map_iff toNat_injective, map_toNat_issued_min,
    List.nodup_map_iff_inj_on List.nodup_range]
  constructor
  · intro h
    by_contra hlong
    -- The last two numbers are both the greatest.
    have heq := h (n - 2) (List.mem_range.mpr (by omega)) (n - 1) (List.mem_range.mpr (by omega))
      (by omega)
    omega
  · intro h i hi j hj heq
    rw [List.mem_range] at hi hj
    omega

/-- A client takes what a counter takes that stops at the greatest number. -/
theorem map_toNat_accepted_upTo (s : Sequencer) (deliveries : List UInt64) :
    (s.accepted deliveries).map UInt64.toNat =
      Counter.takenUpTo (2 ^ 64 - 1) s.next.toNat (deliveries.map UInt64.toNat) := by
  induction deliveries generalizing s with
  | nil => rfl
  | cons d ds ih =>
    unfold accepted at ih ⊢
    rw [List.map_cons, trace_cons rfl]
    by_cases hd : d = s.next
    · subst hd
      have hnext : (saturatingAdd s.next 1).toNat = min (s.next.toNat + 1) (2 ^ 64 - 1) :=
        saturatingAdd_toNat s.next 1
      rw [Counter.takenUpTo_wanted, accept_wanted, ← hnext]
      simp only [List.filterMap_cons, List.map_cons]
      rw [ih]
    · have hne : d.toNat ≠ s.next.toNat := fun heq => hd (UInt64.toNat_inj.mp heq)
      rw [Counter.takenUpTo_other hne, accept_other hd]
      simp only [List.filterMap_cons]
      exact ih s

end Sequencer

/-- The numbers of `n` frames sent are distinct, and new to a client that resumes. -/
def IssuesOnce (s : Start) (n : Nat) : Prop :=
  (Sequencer.issued n s.sequencer).Nodup ∧
    ∀ lastSeen, s = .resumingAfter lastSeen → ∀ x ∈ Sequencer.issued n s.sequencer, lastSeen < x

/-- No number of a delivery is accepted twice. -/
def AcceptsOnce (s : Start) (deliveries : List UInt64) : Prop :=
  (s.sequencer.accepted deliveries).Nodup

/-- Every number still to come up to the greatest, and the greatest once more. -/
def overrun (s : Start) : List Nat :=
  List.range' s.sequencer.next.toNat (2 ^ 64 - s.sequencer.next.toNat) ++ [2 ^ 64 - 1]

theorem issuesOnce_of_le {s : Start} {n : Nat} (hle : s.first + n ≤ 2 ^ 64) : IssuesOnce s n := by
  have hnext := s.sequencer_next
  refine ⟨(Sequencer.issued_nodup_iff n _).mpr (Or.inr (by omega)), ?_⟩
  intro lastSeen hs x hx
  have hmem : x.toNat ∈ (Sequencer.issued n s.sequencer).map UInt64.toNat :=
    List.mem_map_of_mem hx
  rw [Sequencer.map_toNat_issued_min] at hmem
  obtain ⟨i, hi, hxi⟩ := List.mem_map.mp hmem
  rw [List.mem_range] at hi
  have hfirst : s.first = lastSeen.toNat + 1 := by
    rw [hs]
    rfl
  rw [UInt64.lt_iff_toNat_lt]
  omega

theorem le_of_issuesOnce {s : Start} {n : Nat} (h : IssuesOnce s n) : s.first + n ≤ 2 ^ 64 := by
  have hfirst := s.first_le
  have hnext := s.sequencer_next
  obtain ⟨hnodup, hnew⟩ := h
  rw [Sequencer.issued_nodup_iff] at hnodup
  by_cases htop : s.first = 2 ^ 64
  · -- The greatest number is taken already, and the next one issued is the same.
    cases n with
    | zero => omega
    | succ n =>
      cases s with
      | new => cases htop
      | resumingAfter lastSeen =>
        have hlt := hnew lastSeen rfl _ List.mem_cons_self
        rw [UInt64.lt_iff_toNat_lt] at hlt
        have hlast : lastSeen.toNat + 1 = 2 ^ 64 := htop
        have hissued : (Start.resumingAfter lastSeen).sequencer.issue.1.toNat < 2 ^ 64 :=
          UInt64.toNat_lt _
        omega
  · omega

/-- Numbers are issued once exactly as long as the range lasts, and accepted once
exactly as long as the peer does not go through the whole range and then repeat its
end. -/
theorem sequence_used_once_iff (s : Start) :
    (∀ n, IssuesOnce s n ↔ s.first + n ≤ 2 ^ 64) ∧
    (∀ deliveries, AcceptsOnce s deliveries ↔
      ¬ (overrun s).Sublist (deliveries.map UInt64.toNat)) := by
  refine ⟨fun n => ⟨le_of_issuesOnce, issuesOnce_of_le⟩, fun deliveries => ?_⟩
  have hle : s.sequencer.next.toNat ≤ 2 ^ 64 - 1 := Nat.le_pred_of_lt (UInt64.toNat_lt _)
  rw [AcceptsOnce, ← List.nodup_map_iff toNat_injective, Sequencer.map_toNat_accepted_upTo,
    Counter.nodup_takenUpTo_iff hle]
  rfl

/-- A client that claims to have seen the last number gets it again, and again. -/
theorem last_number_used_twice :
    Sequencer.issued 2 (Start.resumingAfter 18446744073709551615).sequencer =
        [18446744073709551615, 18446744073709551615] ∧
      ¬ IssuesOnce (.resumingAfter 18446744073709551615) 2 ∧
      ¬ AcceptsOnce (.resumingAfter 18446744073709551615)
        [18446744073709551615, 18446744073709551615] := by
  refine ⟨by decide, fun h => absurd h.1 (by decide), fun h => ?_⟩
  rw [AcceptsOnce] at h
  exact absurd h (by decide)

end Protocol
end IndieWorker
