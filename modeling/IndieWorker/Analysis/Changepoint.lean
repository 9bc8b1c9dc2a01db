import IndieWorker.Analysis.Samples
import IndieWorker.Lib.Argmax
import IndieWorker.Lib.Overflow
import Mathlib.Data.List.ReduceOption

/-!
# Change points

`cusum_changepoint` of `src/analysis/regression.rs`.  A result is missing when the
program panics.  Sizes are of 64 bits.
-/

namespace IndieWorker
namespace Analysis
namespace Samples

open Argmax

/-- The numbers of a series in which every number is finite; `none` is one that is
not. -/
def checkFinite {α : Type} (values : List (Option α)) : Except StatsError (List α) :=
  match values.findIdx? Option.isNone with
  | some index => .error (.notFinite index)
  | none => .ok values.reduceOption

theorem checkFinite_map_some {α : Type} (values : List α) :
    checkFinite (values.map some) = .ok values := by
  have hfind : (values.map some).findIdx? Option.isNone = none := by
    rw [List.findIdx?_eq_none_iff]
    intro v hv
    obtain ⟨w, -, rfl⟩ := List.mem_map.mp hv
    rfl
  rw [checkFinite, hfind]
  simp [List.reduceOption, List.filterMap_map]

theorem eq_map_some_of_checkFinite {α : Type} {series : List (Option α)} {values : List α}
    (h : checkFinite series = .ok values) : series = values.map some := by
  rw [checkFinite] at h
  split at h
  · cases h
  · next hfind =>
    rw [List.findIdx?_eq_none_iff] at hfind
    rw [← Except.ok.inj h]
    clear h
    induction series with
    | nil => rfl
    | cons v series ih =>
      cases v with
      | none => exact absurd (hfind none List.mem_cons_self) Bool.true_eq_false.mp
      | some v =>
        rw [List.reduceOption_cons_of_some, List.map_cons,
          ← ih fun w hw => hfind w (List.mem_cons_of_mem _ hw)]

/-! ## The loop -/

/-- The splits that leave a segment on both sides. -/
def Admissible {α : Type} (series : List α) (segment split : Nat) : Prop :=
  segment ≤ split ∧ segment ≤ series.length - split

section Loop

variable {K : Type} [Field K]

/-- The sum of the deviations of the first observations. -/
def deviation (series : List K) (split : Nat) : K :=
  ((series.take split).map (· - mean series)).sum

theorem deviation_succ {series before after : List K} {v : K} (h : series = before ++ v :: after) :
    deviation series (before.length + 1) = deviation series before.length + (v - mean series) := by
  have htake : series.take before.length = before := by
    rw [h, List.take_left]
  have htake' : series.take (before.length + 1) = before ++ [v] := by
    rw [h, List.take_length_add_append, List.take_succ_cons, List.take_zero]
  rw [deviation, deviation, htake, htake', List.map_append, List.sum_append]
  simp

variable [LinearOrder K] (sqrt : K → K)

/-- The score of a split of `n` observations, from the sum of the deviations before
it. -/
def splitScore (n split : Nat) (cumulative : K) : K :=
  |cumulative| / sqrt (split * (n - split) / n)

/-- One turn of the loop over the observations. -/
def scanStep (series : List K) (segment : Nat) (state : K × Best K) (observation : K × Nat) :
    K × Best K :=
  let cumulative := state.1 + (observation.1 - mean series)
  let split := observation.2 + 1
  if split < segment ∨ series.length - split < segment then (cumulative, state.2)
  else (cumulative, state.2.offer split (splitScore sqrt series.length split cumulative))

/-- The split the loop ends with. -/
def bestSplit (series : List K) (segment : Nat) : Nat :=
  (series.zipIdx.foldl (scanStep sqrt series segment) (0, ⟨segment, none⟩)).2.index

def score (series : List K) (split : Nat) : K :=
  splitScore sqrt series.length split (deviation series split)

/-- What the loop knows when it has walked some observations. -/
structure Scanned (sqrt : K → K) (series : List K) (segment walked : Nat) (state : K × Best K) :
    Prop where
  cumulative : state.1 = deviation series walked
  best : Tracks (Admissible series segment) (score sqrt series) segment (walked + 1) state.2

theorem scanned_start (series : List K) {segment : Nat} (hsegment : 0 < segment) :
    Scanned sqrt series segment 0 (0, ⟨segment, none⟩) := by
  refine ⟨rfl, tracks_start.skip ?_⟩
  rw [Admissible]
  omega

variable {sqrt} {series : List K} {segment : Nat}

/-- One turn of the loop. -/
theorem Scanned.step {before after : List K} {v : K} {state : K × Best K}
    (h : Scanned sqrt series segment before.length state)
    (hseries : series = before ++ v :: after) :
    Scanned sqrt series segment (before.length + 1)
      (scanStep sqrt series segment state (v, before.length)) := by
  have hcumulative : state.1 + (v - mean series) = deviation series (before.length + 1) := by
    rw [deviation_succ hseries, h.cumulative]
  rw [scanStep]
  by_cases hguard : before.length + 1 < segment ∨ series.length - (before.length + 1) < segment
  · rw [if_pos hguard]
    refine ⟨hcumulative, h.best.skip ?_⟩
    rw [Admissible]
    omega
  · rw [if_neg hguard]
    refine ⟨hcumulative, ?_⟩
    show Tracks _ _ _ _ (state.2.offer (before.length + 1) (splitScore sqrt series.length
      (before.length + 1) (state.1 + (v - mean series))))
    rw [hcumulative]
    apply h.best.offer
    rw [Admissible]
    omega

/-- The whole loop. -/
theorem Scanned.run (before after : List K) {state : K × Best K}
    (h : Scanned sqrt series segment before.length state) (hseries : series = before ++ after) :
    Scanned sqrt series segment series.length
      ((after.zipIdx before.length).foldl (scanStep sqrt series segment) state) := by
  induction after generalizing before state with
  | nil =>
    rw [List.append_nil] at hseries
    rw [hseries] at h ⊢
    exact h
  | cons v after ih =>
    rw [List.zipIdx_cons, List.foldl_cons]
    have hstep := h.step hseries
    have hseries' : series = (before ++ [v]) ++ after := by
      rw [hseries, List.append_assoc, List.singleton_append]
    have hlength : (before ++ [v]).length = before.length + 1 := by
      rw [List.length_append, List.length_singleton]
    rw [← hlength] at hstep ⊢
    exact ih _ hstep hseries'

theorem tracks_bestSplit (sqrt : K → K) (series : List K) (hsegment : 0 < segment) :
    ∃ best : Best K, best.index = bestSplit sqrt series segment ∧
      Tracks (Admissible series segment) (score sqrt series) segment (series.length + 1) best := by
  have hstart := scanned_start sqrt series hsegment
  have hrun := Scanned.run [] series hstart (List.nil_append series).symm
  exact ⟨_, rfl, hrun.best⟩

/-- With room for two segments, the loop ends with the first of the best splits. -/
theorem bestSplit_firstLargest (sqrt : K → K) (hsegment : 0 < segment)
    (hroom : 2 * segment ≤ series.length) :
    FirstLargest (fun split => Admissible series segment split ∧ split < series.length + 1)
      (score sqrt series) (bestSplit sqrt series segment) := by
  obtain ⟨best, hindex, htracks⟩ := tracks_bestSplit sqrt series hsegment
  rw [← hindex]
  refine htracks.firstLargest (j := segment) (by omega) ⟨le_rfl, ?_⟩
  omega

theorem bestSplit_le (sqrt : K → K) (hsegment : 0 < segment)
    (hroom : 2 * segment ≤ series.length) : bestSplit sqrt series segment ≤ series.length := by
  exact Nat.le_of_lt_succ (bestSplit_firstLargest sqrt hsegment hroom).offered.2

end Loop

/-! ## The program -/

section Program

variable {K : Type} [Field K] [LinearOrder K] [IsStrictOrderedRing K]

/-- Where a series shifted, and by how much. -/
structure ChangePoint (K : Type) [Field K] [LinearOrder K] [IsStrictOrderedRing K] where
  index : Nat
  meanBefore : K
  meanAfter : K
  difference : K
  pValue : PValue K

variable (sqrt : K → K) (incompleteBeta : K → K → K → K)

/-- The verdict on a split. -/
def judge (series : List K) (index : Nat) (alpha : K) :
    Except StatsError (Option (ChangePoint K)) :=
  let before := series.take index
  let after := series.drop index
  match welchT sqrt incompleteBeta before after with
  | .ok test =>
    if test.pValue.val ≤ alpha then
      .ok (some ⟨index, test.meanBefore, test.meanAfter, test.difference, test.pValue⟩)
    else .ok none
  | .error (.zeroVariance _) =>
    let m1 := mean before
    let m2 := mean after
    if |m2 - m1| > 0 then .ok (some ⟨index, m1, m2, m2 - m1, ⟨0, le_rfl, zero_le_one⟩⟩)
    else .ok none
  | .error other => .error other

/-- The most likely level shift of a series.  A split beyond the series panics. -/
def cusumChangepoint (b : Build) (series : List (Option K)) (minSegment : UInt64) (alpha : K) :
    Option (Except StatsError (Option (ChangePoint K))) :=
  (b.mul (max minSegment 2) 2).bind fun need =>
    if series.length < need.toNat then
      some (.error (.tooFewObservations series.length need.toNat))
    else
      match checkFinite series with
      | .error error => some (.error error)
      | .ok values =>
        let index := bestSplit sqrt values (max minSegment 2).toNat
        if values.length < index then none
        else some (judge sqrt incompleteBeta values index alpha)

/-! ## Panics -/

/-- The required length is exact, the split is within the series, the call returns,
and a short series is refused. -/
structure Total (b : Build) (series : List (Option K)) (minSegment : UInt64) (alpha : K) :
    Prop where
  need : ∃ need, b.mul (max minSegment 2) 2 = some need ∧
    need.toNat = 2 * max minSegment.toNat 2
  split : ∀ need values, b.mul (max minSegment 2) 2 = some need → need.toNat ≤ series.length →
    checkFinite series = .ok values →
      bestSplit sqrt values (max minSegment 2).toNat ≤ values.length
  returns : cusumChangepoint sqrt incompleteBeta b series minSegment alpha ≠ none
  short : series.length < 2 * max minSegment.toNat 2 →
    cusumChangepoint sqrt incompleteBeta b series minSegment alpha =
      some (.error (.tooFewObservations series.length (2 * max minSegment.toNat 2)))

theorem toNat_segment (minSegment : UInt64) :
    (max minSegment 2).toNat = max minSegment.toNat 2 := max_toNat minSegment 2

variable {minSegment : UInt64}

/-- The required length, when it fits. -/
theorem mul_segment (b : Build) (h : minSegment.toNat < 2 ^ 63) :
    ∃ need, b.mul (max minSegment 2) 2 = some need ∧
      need.toNat = 2 * max minSegment.toNat 2 := by
  have hfits : (max minSegment 2).toNat * (2 : UInt64).toNat < 2 ^ 64 := by
    rw [toNat_segment]
    show max minSegment.toNat 2 * 2 < 2 ^ 64
    omega
  refine ⟨_, Build.mul_of_lt b hfits, ?_⟩
  rw [Build.toNat_mul_of_lt hfits, toNat_segment]
  exact Nat.mul_comm _ _

/-- The promise is kept in either build exactly when the required length fits. -/
theorem total_iff (b : Build) (series : List (Option K)) (minSegment : UInt64) (alpha : K) :
    Total sqrt incompleteBeta b series minSegment alpha ↔ minSegment.toNat < 2 ^ 63 := by
  constructor
  · intro h
    obtain ⟨need, -, hneed⟩ := h.need
    have hlt := need.toNat_lt
    omega
  · intro hfits
    obtain ⟨need, hmul, hneed⟩ := mul_segment b hfits
    have hsplit : ∀ values, need.toNat ≤ series.length → checkFinite series = .ok values →
        bestSplit sqrt values (max minSegment 2).toNat ≤ values.length := by
      intro values hlong hfinite
      have hlength : series.length = values.length := by
        rw [eq_map_some_of_checkFinite hfinite, List.length_map]
      rw [toNat_segment]
      apply bestSplit_le sqrt
      · omega
      · omega
    refine ⟨⟨need, hmul, hneed⟩, ?_, ?_, ?_⟩
    · intro need' values hmul' hlong
      obtain rfl : need = need' := Option.some.inj (hmul.symm.trans hmul')
      exact hsplit values hlong
    · rw [cusumChangepoint, hmul, Option.bind_some]
      split
      · exact Option.some_ne_none _
      · next hlong =>
        split
        · exact Option.some_ne_none _
        · next values hfinite =>
          rw [if_neg (Nat.not_lt.mpr (hsplit values (Nat.not_lt.mp hlong) hfinite))]
          exact Option.some_ne_none _
    · intro hshort
      rw [← hneed] at hshort ⊢
      rw [cusumChangepoint, hmul, Option.bind_some, if_pos hshort]

end Program

/-- Four observations in segments of two. -/
theorem total_of_two :
    Total (K := ℚ) id (fun _ _ _ => 1) .checked [some 0, some 0, some 1, some 1] 2 1 :=
  (total_iff id (fun _ _ _ => 1) .checked [some 0, some 0, some 1, some 1] 2 1).mpr (by decide)

/-- With the largest power of two for a segment, one build panics at the required
length and the other at the split. -/
theorem huge_segment_panics :
    (cusumChangepoint (K := ℚ) id (fun _ _ _ => 1) .checked [some 0, some 0, some 1, some 1]
        (2 ^ 63) 1 = none ∧
      cusumChangepoint (K := ℚ) id (fun _ _ _ => 1) .wrapping [some 0, some 0, some 1, some 1]
        (2 ^ 63) 1 = none) ∧
      ¬(Total (K := ℚ) id (fun _ _ _ => 1) .checked [some 0, some 0, some 1, some 1] (2 ^ 63) 1 ∨
        Total (K := ℚ) id (fun _ _ _ => 1) .wrapping [some 0, some 0, some 1, some 1]
          (2 ^ 63) 1) := by
  have hchecked : cusumChangepoint (K := ℚ) id (fun _ _ _ => 1) .checked
      [some 0, some 0, some 1, some 1] (2 ^ 63) 1 = none :=
    Option.isNone_iff_eq_none.mp (by decide +kernel)
  have hwrapping : cusumChangepoint (K := ℚ) id (fun _ _ _ => 1) .wrapping
      [some 0, some 0, some 1, some 1] (2 ^ 63) 1 = none :=
    Option.isNone_iff_eq_none.mp (by decide +kernel)
  refine ⟨⟨hchecked, hwrapping⟩, fun h => ?_⟩
  cases h with
  | inl h => exact h.returns hchecked
  | inr h => exact h.returns hwrapping

end Samples
end Analysis
end IndieWorker
