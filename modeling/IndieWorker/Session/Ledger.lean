import IndieWorker.Session.Cursor

/-!
# Accounting for every event

What a run of the cursor accepted and what it reported as skipped, against where
it stands.  Every number up to `delivered` is crossed by exactly one call.  An
accepted event accounts for the number it crosses; a jump crosses one number more
than the gap it reports.
-/

namespace IndieWorker
namespace Session

open Run

namespace Cursor

/-- The gap an entry reported. -/
def gapBy (x : Entry Cursor Call Answer) : Option Nat :=
  match x.output with
  | .jumped gap => some gap.toNat
  | .accepted _ => none

/-- The gaps returned by `jump`, in order. -/
def gaps (h : List (Entry Cursor Call Answer)) : List Nat := h.filterMap gapBy

/-- The numbers an entry accounts for: an accepted sequence, or the `gap` numbers
after `delivered` that a jump reports. -/
def covered (x : Entry Cursor Call Answer) : List Nat :=
  match x.output with
  | .accepted (.ok ()) => [x.after.delivered.toNat]
  | .accepted (.error _) => []
  | .jumped gap => List.range' (x.before.delivered.toNat + 1) gap.toNat

/-- The numbers an entry moves the cursor across. -/
def crossed (x : Entry Cursor Call Answer) : List Nat :=
  List.range' (x.before.delivered.toNat + 1) (x.after.delivered.toNat - x.before.delivered.toNat)

/-- Accepts and reported gaps add up to `delivered`, and every number up to it was
accepted once or counted in one gap. -/
def Accounted (h : List (Entry Cursor Call Answer)) (c : Cursor) : Prop :=
  (acceptedSequences h).length + (gaps h).sum = c.delivered.toNat ∧
    ∀ n, 1 ≤ n → n ≤ c.delivered.toNat → (h.flatMap covered).count n = 1

/-- A jump goes forward. -/
def forward (x : Entry Cursor Call Answer) : Bool :=
  match x.event with
  | .jump skippedTo => x.before.delivered < skippedTo
  | .accept _ => true

/-- Every jump of the run goes forward. -/
def JumpsForward (h : List (Entry Cursor Call Answer)) : Prop := ∀ x ∈ h, forward x = true

/-- The cursor never stands at `u64::MAX`. -/
def StaysBelowMax (h : List (Entry Cursor Call Answer)) : Prop :=
  ∀ x ∈ h, x.after.delivered.toNat ≠ 2 ^ 64 - 1

instance : DecidablePred JumpsForward :=
  fun h => inferInstanceAs (Decidable (∀ x ∈ h, forward x = true))

instance : DecidablePred StaysBelowMax :=
  fun h => inferInstanceAs (Decidable (∀ x ∈ h, _ ≠ _))

def isJump : Call → Bool
  | .jump _ => true
  | .accept _ => false

variable {b : Build} {calls : List Call}

/-- Below the maximum every call returns, so the history has an entry for each. -/
theorem map_event_history (hmax : StaysBelowMax (history b calls)) :
    (history b calls).map Entry.event = calls := by
  suffices h : ∀ c : Cursor, c.delivered.toNat ≠ 2 ^ 64 - 1 →
      StaysBelowMax (trace (call b) c calls) → (trace (call b) c calls).map Entry.event = calls from
    h start (by decide) hmax
  clear hmax
  induction calls with
  | nil => intro _ _ _; rfl
  | cons e calls ih =>
    intro c hc hmax
    have hadd : b.add c.delivered 1 = some (c.delivered + 1) := by
      have := c.delivered.toNat_lt
      exact b.add_of_lt (by rw [UInt64.toNat_one]; omega)
    obtain ⟨⟨c', o⟩, hcall⟩ : ∃ p, call b c e = some p := by
      cases e with
      | accept s =>
        simp only [call, accept, hadd, Option.bind_eq_bind, Option.bind_some]
        split <;> exact ⟨_, rfl⟩
      | jump k =>
        simp only [call, jump, hadd, Option.bind_eq_bind, Option.bind_some]
        exact ⟨_, rfl⟩
    rw [trace_cons hcall] at hmax ⊢
    rw [List.map_cons, ih c' (hmax _ List.mem_cons_self)
      fun x hx => hmax x (List.mem_cons_of_mem _ hx)]

/-- What one forward call below the maximum adds to the three counts. -/
structure Booked (x : Entry Cursor Call Answer) : Prop where
  rises : x.before.delivered.toNat ≤ x.after.delivered.toNat
  count : (acceptedBy x).toList.length + (gapBy x).toList.sum +
      (if isJump x.event then 1 else 0) =
    x.after.delivered.toNat - x.before.delivered.toNat
  cover : isJump x.event = false → covered x = crossed x

theorem booked {x : Entry Cursor Call Answer}
    (h : call b x.before x.event = some (x.after, x.output))
    (hbefore : x.before.delivered.toNat ≠ 2 ^ 64 - 1)
    (hforward : forward x = true) : Booked x := by
  obtain ⟨c, e, o, c'⟩ := x
  change call b c e = some (c', o) at h
  change c.delivered.toNat ≠ 2 ^ 64 - 1 at hbefore
  have hd := c.delivered.toNat_lt
  have hnext : (c.delivered + 1).toNat = c.delivered.toNat + 1 := toNat_add_one (by omega)
  rcases call_cases h with ⟨s, rfl, rfl, rfl, hs⟩ | ⟨s, rfl, rfl, rfl, -⟩ | ⟨k, rfl, rfl, rfl⟩
  · have hs : s.toNat = c.delivered.toNat + 1 := by rw [hs, hnext]
    refine ⟨?_, ?_, fun _ => ?_⟩
    · show c.delivered.toNat ≤ s.toNat
      omega
    · show 1 + 0 + 0 = s.toNat - c.delivered.toNat
      omega
    · show [s.toNat] = List.range' (c.delivered.toNat + 1) (s.toNat - c.delivered.toNat)
      rw [hs, Nat.add_sub_cancel_left]
      rfl
  · refine ⟨Nat.le_refl _, ?_, fun _ => ?_⟩
    · show 0 + 0 + 0 = c'.delivered.toNat - c'.delivered.toNat
      omega
    · show [] = List.range' (c'.delivered.toNat + 1) (c'.delivered.toNat - c'.delivered.toNat)
      rw [Nat.sub_self]
      rfl
  · have hk : c.delivered.toNat < k.toNat := UInt64.lt_iff_toNat_lt.mp (of_decide_eq_true hforward)
    refine ⟨Nat.le_of_lt hk, ?_, fun hjump => by cases hjump⟩
    show 0 + ((saturatingSub k (c.delivered + 1)).toNat + 0) + 1 = k.toNat - c.delivered.toNat
    rw [saturatingSub_toNat, hnext]
    omega

theorem gaps_append (h : List (Entry Cursor Call Answer)) (x : Entry Cursor Call Answer) :
    gaps (h ++ [x]) = gaps h ++ (gapBy x).toList := by
  rw [gaps, List.filterMap_append]
  show gaps h ++ List.filterMap gapBy [x] = _
  rcases hx : gapBy x with _ | s <;> simp [hx]

/-- The ledger of a run: accepts, gaps and one number for each jump add up to
`delivered`, and the numbers up to it are crossed once each, in order. -/
structure Balanced (h : List (Entry Cursor Call Answer)) (c : Cursor) : Prop where
  below : c.delivered.toNat ≠ 2 ^ 64 - 1
  entries : ∀ x ∈ h, Booked x
  total : (acceptedSequences h).length + (gaps h).sum + h.countP (fun x => isJump x.event) =
    c.delivered.toNat
  order : h.flatMap crossed = List.range' 1 c.delivered.toNat

theorem balanced_start : Balanced [] start where
  below := by decide
  entries := by simp
  total := rfl
  order := rfl

theorem balanced_step {h : List (Entry Cursor Call Answer)} {x : Entry Cursor Call Answer}
    (hbal : Balanced h x.before) (hx : Booked x) (hbelow : x.after.delivered.toNat ≠ 2 ^ 64 - 1) :
    Balanced (h ++ [x]) x.after := by
  have hrise := hx.rises
  refine ⟨hbelow, fun y hy => ?_, ?_, ?_⟩
  · rcases List.mem_append.mp hy with hy | hy
    · exact hbal.entries y hy
    · rw [List.mem_singleton.mp hy]
      exact hx
  · have htotal := hbal.total
    have hcount := hx.count
    rw [acceptedSequences_append, gaps_append, List.length_append, List.sum_append,
      List.countP_append, List.countP_singleton]
    omega
  · have hcross : crossed x = List.range' (1 + x.before.delivered.toNat)
        (x.after.delivered.toNat - x.before.delivered.toNat) := by
      rw [crossed, Nat.add_comm]
    rw [List.flatMap_append, hbal.order, List.flatMap_singleton, hcross, List.range'_append_1,
      Nat.add_sub_cancel' hrise]

theorem balanced_after (hforward : JumpsForward (history b calls))
    (hmax : StaysBelowMax (history b calls)) : Balanced (history b calls) (after b calls) := by
  refine history_invariant_start
    (fun h c => JumpsForward h → StaysBelowMax h → Balanced h c)
    (fun _ _ => balanced_start) ?_ calls hforward hmax
  intro h c e c' o ih hcall hforward hmax
  have hmem : (⟨c, e, o, c'⟩ : Entry Cursor Call Answer) ∈ h ++ [⟨c, e, o, c'⟩] :=
    List.mem_append_right _ (List.mem_singleton_self _)
  have hbal := ih (fun x hx => hforward x (List.mem_append_left _ hx))
    fun x hx => hmax x (List.mem_append_left _ hx)
  exact balanced_step hbal (booked hcall hbal.below (hforward _ hmem)) (hmax _ hmem)

theorem countP_isJump (hmax : StaysBelowMax (history b calls)) :
    (history b calls).countP (fun x => isJump x.event) = calls.countP isJump := by
  conv_rhs => rw [← map_event_history hmax]
  rw [List.countP_map]
  rfl

/-- Accepts and reported gaps account for every number up to `delivered` exactly
when the run has no jump: each jump loses the number it lands on. -/
theorem accounted_iff (b : Build) (calls : List Call)
    (hforward : JumpsForward (history b calls)) (hmax : StaysBelowMax (history b calls)) :
    Accounted (history b calls) (after b calls) ↔ ∀ k, Call.jump k ∉ calls := by
  have hbal := balanced_after hforward hmax
  have htotal := hbal.total
  rw [countP_isJump hmax] at htotal
  constructor
  · intro h k hk
    obtain ⟨hsum, -⟩ := h
    have : 0 < calls.countP isJump := List.countP_pos_iff.mpr ⟨_, hk, rfl⟩
    omega
  · intro hno
    have hjump : ∀ e ∈ calls, isJump e = false := by
      intro e he
      cases e with
      | accept s => rfl
      | jump k => exact absurd he (hno k)
    have hzero : calls.countP isJump = 0 := by
      rw [List.countP_eq_zero]
      exact fun e he => by rw [hjump e he]; exact Bool.false_ne_true
    refine ⟨by omega, fun n hpos hle => ?_⟩
    have hcover : (history b calls).flatMap covered = (history b calls).flatMap crossed := by
      refine List.flatMap_congr fun x hx => (hbal.entries x hx).cover (hjump _ ?_)
      rw [← map_event_history hmax]
      exact List.mem_map_of_mem hx
    rw [hcover, hbal.order]
    exact List.count_eq_one_of_mem List.nodup_range' (List.mem_range'_1.mpr ⟨hpos, by omega⟩)

theorem accounted_iff_three_accepts :
    Accounted (history .checked [.accept 1, .accept 2, .accept 3])
        (after .checked [.accept 1, .accept 2, .accept 3]) ↔
      ∀ k, Call.jump k ∉ [Call.accept 1, .accept 2, .accept 3] :=
  accounted_iff .checked [.accept 1, .accept 2, .accept 3] (by decide) (by decide)

/-- After two events and a jump to 10, two accepts and a gap of 7 stand against
ten numbers delivered: 10 itself was neither accepted nor reported. -/
theorem jump_loses_its_target :
    JumpsForward (history .checked [.accept 1, .accept 2, .jump 10]) ∧
      StaysBelowMax (history .checked [.accept 1, .accept 2, .jump 10]) ∧
      ¬ Accounted (history .checked [.accept 1, .accept 2, .jump 10])
        (after .checked [.accept 1, .accept 2, .jump 10]) := by
  refine ⟨by decide, by decide, fun h => ?_⟩
  exact absurd h.1 (by decide)

end Cursor

end Session
end IndieWorker
