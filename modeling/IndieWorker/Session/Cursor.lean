import IndieWorker.Lib.Overflow
import IndieWorker.Lib.Run

/-!
# The resume cursor

`Cursor` of `src/runtime/session.rs`, driven by the sequences of `Event` frames
and the jumps of `Lagged` frames as they come off the wire.
-/

namespace IndieWorker
namespace Session

open Run

/-- Where a subscriber has got to on one stream. -/
structure Cursor where
  delivered : UInt64
  deriving DecidableEq, Repr

namespace Cursor

def start : Cursor := ⟨0⟩

/-- Accept an event, or say which sequence is expected. -/
def accept (b : Build) (c : Cursor) (sequence : UInt64) :
    Option (Cursor × Except UInt64 Unit) := do
  let expected ← b.add c.delivered 1
  if sequence = expected then
    return (⟨sequence⟩, .ok ())
  else
    return (c, .error expected)

/-- Record a jump, and say how large the gap was. -/
def jump (b : Build) (c : Cursor) (skippedTo : UInt64) : Option (Cursor × UInt64) := do
  let gap := saturatingSub skippedTo (← b.add c.delivered 1)
  return (⟨skippedTo⟩, gap)

/-! ## Runs -/

inductive Call where
  | accept (sequence : UInt64)
  | jump (skippedTo : UInt64)
  deriving DecidableEq, Repr

inductive Answer where
  | accepted (r : Except UInt64 Unit)
  | jumped (gap : UInt64)

def call (b : Build) (c : Cursor) : Call → Option (Cursor × Answer)
  | .accept sequence => (c.accept b sequence).map fun p => (p.1, .accepted p.2)
  | .jump skippedTo => (c.jump b skippedTo).map fun p => (p.1, .jumped p.2)

/-- The calls that return, from `Cursor::start()`.  A call that overflows in a
checked build does not, and ends the run. -/
def history (b : Build) (calls : List Call) : List (Entry Cursor Call Answer) :=
  trace (call b) start calls

def after (b : Build) (calls : List Call) : Cursor := final (call b) start calls

/-- The sequence an entry accepted. -/
def acceptedBy (x : Entry Cursor Call Answer) : Option UInt64 :=
  match x.event, x.output with
  | .accept sequence, .accepted (.ok ()) => some sequence
  | _, _ => none

/-- The sequences for which `accept` returned `Ok`, in order. -/
def acceptedSequences (h : List (Entry Cursor Call Answer)) : List UInt64 :=
  h.filterMap acceptedBy

/-- What one call can do. -/
theorem call_cases {b : Build} {c c' : Cursor} {e : Call} {o : Answer}
    (h : call b c e = some (c', o)) :
    (∃ s, e = .accept s ∧ o = .accepted (.ok ()) ∧ c' = ⟨s⟩ ∧ s = c.delivered + 1) ∨
    (∃ s, e = .accept s ∧ o = .accepted (.error (c.delivered + 1)) ∧ c' = c ∧
      s ≠ c.delivered + 1) ∨
    (∃ k, e = .jump k ∧ o = .jumped (saturatingSub k (c.delivered + 1)) ∧ c' = ⟨k⟩) := by
  cases e with
  | accept s =>
    simp only [call, accept, Option.map_eq_some_iff, Option.bind_eq_bind,
      Option.bind_eq_some_iff] at h
    obtain ⟨p, ⟨n, hn, hp⟩, hco⟩ := h
    rw [Build.add_eq_some hn] at hp
    split at hp
    · next hs =>
      cases hp
      cases hco
      exact Or.inl ⟨s, rfl, rfl, rfl, hs⟩
    · next hs =>
      cases hp
      cases hco
      exact Or.inr (Or.inl ⟨s, rfl, rfl, rfl, hs⟩)
  | jump k =>
    simp only [call, jump, Option.map_eq_some_iff, Option.bind_eq_bind,
      Option.bind_eq_some_iff] at h
    obtain ⟨p, ⟨n, hn, hp⟩, hco⟩ := h
    rw [Build.add_eq_some hn] at hp
    cases hp
    cases hco
    exact Or.inr (Or.inr ⟨k, rfl, rfl, rfl⟩)

/-! ## Rewinding -/

/-- No sequence is accepted twice: the accepted ones increase, and `delivered`
never decreases. -/
def NeverRewinds (h : List (Entry Cursor Call Answer)) : Prop :=
  (acceptedSequences h).Pairwise (· < ·) ∧ ∀ x ∈ h, x.before.delivered ≤ x.after.delivered

/-- The call does not ask the cursor to go back: a jump leads to or past
`delivered`, and no `0` is offered to a cursor at `u64::MAX`, whose successor is
`0` in an unchecked build. -/
def Onward (x : Entry Cursor Call Answer) : Prop :=
  match x.event with
  | .jump skippedTo => x.before.delivered ≤ skippedTo
  | .accept sequence => x.before.delivered.toNat = 2 ^ 64 - 1 → sequence ≠ 0

theorem add_one_eq_zero {d : UInt64} (h : d.toNat = 2 ^ 64 - 1) : d + 1 = 0 := by
  rw [← UInt64.toNat_inj, UInt64.toNat_add, h]
  rfl

theorem le_add_one_iff {d : UInt64} : d ≤ d + 1 ↔ d.toNat ≠ 2 ^ 64 - 1 := by
  have hd := d.toNat_lt
  constructor
  · intro h hmax
    rw [add_one_eq_zero hmax, UInt64.le_iff_toNat_le, hmax, UInt64.toNat_zero] at h
    omega
  · intro h
    rw [UInt64.le_iff_toNat_le, toNat_add_one (by omega)]
    omega

/-- One call keeps `delivered` from decreasing exactly when it is onward. -/
theorem le_after_iff {b : Build} {x : Entry Cursor Call Answer}
    (h : call b x.before x.event = some (x.after, x.output)) :
    x.before.delivered ≤ x.after.delivered ↔ Onward x := by
  obtain ⟨c, e, o, c'⟩ := x
  change call b c e = some (c', o) at h
  rcases call_cases h with ⟨s, rfl, rfl, rfl, hs⟩ | ⟨s, rfl, rfl, rfl, hs⟩ | ⟨k, rfl, rfl, rfl⟩
  · show c.delivered ≤ s ↔ (c.delivered.toNat = 2 ^ 64 - 1 → s ≠ 0)
    rw [hs, le_add_one_iff]
    constructor
    · exact fun hne hmax => absurd hmax hne
    · exact fun hall hmax => hall hmax (add_one_eq_zero hmax)
  · show c'.delivered ≤ c'.delivered ↔ (c'.delivered.toNat = 2 ^ 64 - 1 → s ≠ 0)
    refine ⟨fun _ hmax hzero => hs ?_, fun _ => UInt64.le_refl _⟩
    rw [hzero, add_one_eq_zero hmax]
  · exact Iff.rfl

theorem acceptedSequences_append (h : List (Entry Cursor Call Answer))
    (x : Entry Cursor Call Answer) :
    acceptedSequences (h ++ [x]) = acceptedSequences h ++ (acceptedBy x).toList := by
  rw [acceptedSequences, List.filterMap_append]
  show acceptedSequences h ++ List.filterMap acceptedBy [x] = _
  rcases hx : acceptedBy x with _ | s <;> simp [hx]

/-- In an onward run everything accepted is behind the cursor, in increasing
order. -/
theorem accepted_increasing {b : Build} {calls : List Call}
    (honward : ∀ x ∈ history b calls, Onward x) :
    (acceptedSequences (history b calls)).Pairwise (· < ·) ∧
      ∀ a ∈ acceptedSequences (history b calls), a ≤ (after b calls).delivered := by
  refine history_invariant_start (fun h c => (∀ x ∈ h, Onward x) →
    (acceptedSequences h).Pairwise (· < ·) ∧ ∀ a ∈ acceptedSequences h, a ≤ c.delivered)
    (fun _ => ⟨List.Pairwise.nil, by simp [acceptedSequences]⟩) ?_ calls honward
  intro h c e c' o ih hcall hall
  obtain ⟨hpair, hle⟩ := ih fun x hx => hall x (List.mem_append_left _ hx)
  have hmono := (le_after_iff (x := ⟨c, e, o, c'⟩) hcall).mpr
    (hall _ (List.mem_append_right _ (List.mem_singleton_self _)))
  simp only at hmono
  rw [acceptedSequences_append]
  rcases call_cases hcall with ⟨s, rfl, rfl, rfl, hs⟩ | ⟨s, rfl, rfl, rfl, -⟩ | ⟨k, rfl, rfl, rfl⟩
  · have hlt : c.delivered < s := by
      refine UInt64.lt_of_le_of_ne hmono fun he => ?_
      have hne := le_add_one_iff.mp (hs ▸ hmono)
      have hd := c.delivered.toNat_lt
      have hnat := congrArg UInt64.toNat (he.trans hs)
      rw [toNat_add_one (by omega)] at hnat
      omega
    refine ⟨List.pairwise_append.mpr ⟨hpair, List.pairwise_singleton _ _, ?_⟩, ?_⟩
    · intro a ha s' hs'
      rw [List.mem_singleton.mp hs']
      exact UInt64.lt_of_le_of_lt (hle a ha) hlt
    · intro a ha
      rcases List.mem_append.mp ha with ha | ha
      · exact UInt64.le_trans (hle a ha) hmono
      · rw [List.mem_singleton.mp ha]
        exact UInt64.le_refl s
  · exact ⟨by simpa [acceptedBy] using hpair, by simpa [acceptedBy] using hle⟩
  · refine ⟨by simpa [acceptedBy] using hpair, fun a ha => ?_⟩
    have ha : a ∈ acceptedSequences h := by simpa [acceptedBy] using ha
    exact UInt64.le_trans (hle a ha) hmono

/-- A run accepts no sequence twice and never goes back exactly when every call
in it is onward. -/
theorem never_rewinds_iff (b : Build) (calls : List Call) :
    NeverRewinds (history b calls) ↔ ∀ x ∈ history b calls, Onward x := by
  constructor
  · intro hand x hx
    obtain ⟨-, hmono⟩ := hand
    exact (le_after_iff (step_of_mem_trace hx)).mp (hmono x hx)
  · intro h
    exact ⟨(accepted_increasing h).1,
      fun x hx => (le_after_iff (step_of_mem_trace hx)).mpr (h x hx)⟩

/-- A jump back to the start makes the cursor accept an event it has already
delivered. -/
theorem jump_back_rewinds :
    acceptedSequences (history .checked [.accept 1, .jump 0, .accept 1]) = [1, 1] ∧
      ¬ NeverRewinds (history .checked [.accept 1, .jump 0, .accept 1]) := by
  have h : acceptedSequences (history .checked [.accept 1, .jump 0, .accept 1]) = [1, 1] := by
    decide
  refine ⟨h, fun hn => ?_⟩
  have := hn.1
  rw [h] at this
  exact absurd this (by decide)

/-! ## The top of the range -/

/-- No call overflows: every one of them returns in a checked build, and in an
unchecked one the successor of `delivered` is never `0`. -/
def Survives (calls : List Call) : Prop :=
  (history .checked calls).map Entry.event = calls ∧
    ∀ x ∈ history .wrapping calls, x.before.delivered + 1 ≠ 0

/-- The call leaves the cursor at `u64::MAX`. -/
def Lands (c : Cursor) : Call → Prop
  | .accept sequence => sequence.toNat = 2 ^ 64 - 1 ∧ c.delivered.toNat = 2 ^ 64 - 2
  | .jump skippedTo => skippedTo.toNat = 2 ^ 64 - 1

theorem add_one_ne_zero_iff {d : UInt64} : d + 1 ≠ 0 ↔ d.toNat + 1 < 2 ^ 64 := by
  have hd := d.toNat_lt
  constructor
  · intro hne
    by_contra hmax
    exact hne (add_one_eq_zero (by omega))
  · intro hlt hzero
    have hnat := congrArg UInt64.toNat hzero
    rw [toNat_add_one hlt, UInt64.toNat_zero] at hnat
    omega

/-- Short of the top the two builds do the same. -/
theorem call_checked {c : Cursor} (hc : c.delivered + 1 ≠ 0) (e : Call) :
    call .checked c e = call .wrapping c e := by
  rw [add_one_ne_zero_iff] at hc
  have hadd : ∀ b : Build, b.add c.delivered 1 = some (c.delivered + 1) :=
    fun b => b.add_of_lt hc
  cases e with
  | accept s => rw [call, call, accept, accept, hadd, hadd]
  | jump k => rw [call, call, jump, jump, hadd, hadd]

/-- At the top a checked build returns from no call. -/
theorem call_checked_eq_none {c : Cursor} (hc : c.delivered + 1 = 0) (e : Call) :
    call .checked c e = none := by
  have hmax : ¬ c.delivered.toNat + 1 < 2 ^ 64 := fun hlt => add_one_ne_zero_iff.mpr hlt hc
  have hadd : Build.checked.add c.delivered 1 = none := if_neg hmax
  cases e with
  | accept s => rw [call, accept, hadd]; rfl
  | jump k => rw [call, jump, hadd]; rfl

theorem call_wrapping_total (c : Cursor) (e : Call) : (call .wrapping c e).isSome := by
  have hadd : Build.wrapping.add c.delivered 1 = some (c.delivered + 1) := by
    unfold Build.add
    by_cases h : c.delivered.toNat + (1 : UInt64).toNat < 2 ^ 64
    · exact if_pos h
    · exact if_neg h
  cases e with
  | accept s =>
    by_cases hs : s = c.delivered + 1
    · simp [call, accept, hadd, hs]
    · simp [call, accept, hadd, hs]
  | jump k => simp [call, jump, hadd]

/-- A checked build makes every call of a run when no call finds the cursor at the
top. -/
theorem map_event_checked_iff (c : Cursor) (calls : List Call) :
    (trace (call .checked) c calls).map Entry.event = calls ↔
      ∀ x ∈ trace (call .wrapping) c calls, x.before.delivered + 1 ≠ 0 := by
  induction calls generalizing c with
  | nil => exact iff_of_true rfl nofun
  | cons e calls ih =>
    obtain ⟨⟨c', o⟩, hcall⟩ := Option.isSome_iff_exists.mp (call_wrapping_total c e)
    rw [trace_cons hcall, List.forall_mem_cons]
    by_cases hc : c.delivered + 1 = 0
    · rw [trace_stop (call_checked_eq_none hc e)]
      exact iff_of_false nofun fun h => h.1 hc
    · rw [trace_cons ((call_checked hc e).trans hcall), List.map_cons, List.cons_inj_right, ih c']
      exact (and_iff_right hc).symm

/-- One call short of the top reaches it exactly when it lands there. -/
theorem lands_iff {c c' : Cursor} {e : Call} {o : Answer} (hc : c.delivered + 1 ≠ 0)
    (hcall : call .wrapping c e = some (c', o)) : Lands c e ↔ c'.delivered + 1 = 0 := by
  rw [← not_iff_not, ← ne_eq (c'.delivered + 1), add_one_ne_zero_iff]
  rw [add_one_ne_zero_iff] at hc
  have hnext := toNat_add_one hc
  have hbound := c'.delivered.toNat_lt
  rcases call_cases hcall with ⟨s, rfl, _, rfl, hs⟩ | ⟨s, rfl, _, rfl, hs⟩ | ⟨k, rfl, _, rfl⟩
  · show ¬ (s.toNat = 2 ^ 64 - 1 ∧ c.delivered.toNat = 2 ^ 64 - 2) ↔ s.toNat + 1 < 2 ^ 64
    rw [← hs] at hnext
    dsimp only at hbound
    omega
  · show ¬ (s.toNat = 2 ^ 64 - 1 ∧ c'.delivered.toNat = 2 ^ 64 - 2) ↔
      c'.delivered.toNat + 1 < 2 ^ 64
    rw [← UInt64.toNat_inj.ne, hnext] at hs
    omega
  · show ¬ k.toNat = 2 ^ 64 - 1 ↔ k.toNat + 1 < 2 ^ 64
    dsimp only at hbound
    omega

/-- The induction is on the calls: each but the last must leave the cursor short of
the top for the next. -/
theorem short_of_top_iff {c : Cursor} (hc : c.delivered + 1 ≠ 0) (calls : List Call) :
    (∀ x ∈ trace (call .wrapping) c calls, x.before.delivered + 1 ≠ 0) ↔
      ∀ front e next rest, calls = front ++ e :: next :: rest →
        ¬ Lands (final (call .wrapping) c front) e := by
  induction calls generalizing c with
  | nil => exact iff_of_true nofun fun front e next rest h => by simp at h
  | cons e calls ih =>
    obtain ⟨⟨c', o⟩, hcall⟩ := Option.isSome_iff_exists.mp (call_wrapping_total c e)
    rw [trace_cons hcall, List.forall_mem_cons, and_iff_right hc]
    cases calls with
    | nil =>
      refine iff_of_true nofun fun front e' next rest h => ?_
      have hlength := congrArg List.length h
      simp at hlength
      omega
    | cons next calls =>
      by_cases hc' : c'.delivered + 1 = 0
      · refine iff_of_false (fun h => ?_) fun h => ?_
        · obtain ⟨⟨d, o'⟩, hnext⟩ := Option.isSome_iff_exists.mp (call_wrapping_total c' next)
          rw [trace_cons hnext, List.forall_mem_cons] at h
          exact h.1 hc'
        · exact h [] e next calls rfl ((lands_iff hc hcall).mpr hc')
      · rw [ih hc']
        constructor
        · intro h front e' next' rest heq
          cases front with
          | nil =>
            cases heq
            exact fun hlands => hc' ((lands_iff hc hcall).mp hlands)
          | cons f front =>
            obtain ⟨hf, htail⟩ := List.cons.inj heq
            rw [← hf, final_cons hcall]
            exact h front e' next' rest htail
        · intro h front e' next' rest heq
          have := h (e :: front) e' next' rest (by rw [heq]; rfl)
          rwa [final_cons hcall] at this

/-- A run survives exactly when no call but its last leaves the cursor at
`u64::MAX`. -/
theorem survives_iff (calls : List Call) :
    Survives calls ↔ ∀ front e next rest, calls = front ++ e :: next :: rest →
      ¬ Lands (after .wrapping front) e := by
  rw [Survives, history, map_event_checked_iff]
  exact (and_self_iff).trans (short_of_top_iff (by decide) calls)

/-- A peer that reports a jump to the top makes the next event overflow. -/
theorem jump_to_top_overflows : ¬ Survives [.jump 18446744073709551615, .accept 1] := by
  intro hsurvives
  exact absurd hsurvives.1 (by decide)

end Cursor

end Session
end IndieWorker
