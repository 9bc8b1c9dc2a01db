import IndieWorker.Analysis.Changepoint
import IndieWorker.Analysis.Pearson
import IndieWorker.Analysis.Ranks

/-!
# Change of units

The tests of `src/analysis/regression.rs` on a series that is measured in other units,
over the reals with the real square root.
-/

namespace IndieWorker
namespace Analysis
namespace Samples

open Argmax

/-- The test in units of which `a` are one of the old, counted from `b`. -/
noncomputable def TwoSample.convert (a b : ℝ) (test : TwoSample ℝ) : TwoSample ℝ where
  meanBefore := a * test.meanBefore + b
  meanAfter := a * test.meanAfter + b
  difference := a * test.difference
  tStatistic := a / |a| * test.tStatistic
  degreesOfFreedom := test.degreesOfFreedom
  pValue := test.pValue
  effectSize := a / |a| * test.effectSize

noncomputable def ChangePoint.convert (a b : ℝ) (cp : ChangePoint ℝ) : ChangePoint ℝ where
  index := cp.index
  meanBefore := a * cp.meanBefore + b
  meanAfter := a * cp.meanAfter + b
  difference := a * cp.difference
  pValue := cp.pValue

variable {a : ℝ} (b : ℝ)

/-! ## The samples -/

section Samples

variable (before after : List ℝ)

theorem variance_affine (a : ℝ) :
    variance (before.map fun v => a * v + b) = a * a * variance before := by
  rcases eq_or_ne before [] with rfl | hne
  · simp [variance, squaredDeviations]
  · rw [variance, variance, squaredDeviations_affine a b hne, List.length_map, mul_div_assoc]

theorem errorShare_affine (a : ℝ) :
    errorShare (before.map fun v => a * v + b) = a * a * errorShare before := by
  rw [errorShare, errorShare, variance_affine, List.length_map, mul_div_assoc]

theorem squaredError_affine (a : ℝ) :
    squaredError (before.map fun v => a * v + b) (after.map fun v => a * v + b) =
      a * a * squaredError before after := by
  rw [squaredError, squaredError, errorShare_affine, errorShare_affine, mul_add]

theorem welchDenominator_affine (a : ℝ) :
    welchDenominator (before.map fun v => a * v + b) (after.map fun v => a * v + b) =
      (a * a) ^ 2 * welchDenominator before after := by
  rw [welchDenominator, welchDenominator, errorShare_affine, errorShare_affine, List.length_map,
    List.length_map, mul_pow (a * a), mul_pow (a * a), mul_div_assoc, mul_div_assoc, mul_add]

/-- The degrees of freedom have no units. -/
theorem welchDegrees_affine (ha : a ≠ 0) :
    welchDegrees (before.map fun v => a * v + b) (after.map fun v => a * v + b) =
      welchDegrees before after := by
  have hpos : 0 < (a * a) ^ 2 := by positivity
  rw [welchDegrees, welchDegrees, welchDenominator_affine, squaredError_affine, List.length_map,
    List.length_map, mul_pow (a * a), mul_div_mul_left _ _ hpos.ne']
  simp only [gt_iff_lt, mul_pos_iff_of_pos_left hpos]

theorem pooledVariance_affine (a : ℝ) :
    pooledVariance (before.map fun v => a * v + b) (after.map fun v => a * v + b) =
      a * a * pooledVariance before after := by
  rw [pooledVariance, pooledVariance, variance_affine, variance_affine, List.length_map,
    List.length_map]
  ring

end Samples

/-! ## Welch's test -/

section Welch

variable (incompleteBeta : ℝ → ℝ → ℝ → ℝ)

theorem div_sqrt_affine (a d v : ℝ) :
    a * d / √(a * a * v) = a / |a| * (d / √v) := by
  rw [Real.sqrt_mul (mul_self_nonneg a), Real.sqrt_mul_self_eq_abs, mul_div_mul_comm]

theorem div_abs_eq_one_or (ha : a ≠ 0) : a / |a| = 1 ∨ a / |a| = -1 := by
  rcases lt_or_gt_of_ne ha with hneg | hpos
  · exact .inr (div_abs_of_neg hneg)
  · exact .inl (div_abs_of_pos hpos)

/-- The p-value sees neither the units nor which of the samples is the larger. -/
theorem twoSidedTPValue_sign (ha : a ≠ 0) (t df : ℝ) :
    twoSidedTPValue incompleteBeta (a / |a| * t) df = twoSidedTPValue incompleteBeta t df := by
  rcases div_abs_eq_one_or ha with hone | hone
  · rw [hone, one_mul]
  · rw [hone, neg_one_mul, twoSidedTPValue_neg]

theorem welchT_affine (ha : a ≠ 0) (before after : List ℝ) :
    welchT Real.sqrt incompleteBeta (before.map fun v => a * v + b)
        (after.map fun v => a * v + b) =
      (welchT Real.sqrt incompleteBeta before after).map (TwoSample.convert a b) := by
  have hzero : ∀ v : ℝ, a * a * v = 0 ↔ v = 0 := fun v =>
    mul_eq_zero_iff_left (mul_self_ne_zero.mpr ha)
  have hsq : 0 < a * a := mul_self_pos.mpr ha
  rw [welchT, welchT, List.length_map, List.length_map]
  split
  · rfl
  · next hbefore =>
    split
    · rfl
    · next hafter =>
      have hne : before ≠ [] ∧ after ≠ [] := by
        constructor <;> rintro rfl <;> simp at hbefore hafter
      have hdifference : a * mean after + b - (a * mean before + b) =
          a * (mean after - mean before) := by ring
      dsimp only
      simp only [variance_affine, hzero]
      split
      · rfl
      · rw [mean_affine a b hne.1, mean_affine a b hne.2, hdifference, squaredError_affine,
          pooledVariance_affine, welchDegrees_affine b _ _ ha, div_sqrt_affine,
          div_sqrt_affine, twoSidedTPValue_sign incompleteBeta ha]
        have hroot : 0 < √(a * a * pooledVariance before after) ↔
            0 < √(pooledVariance before after) := by
          rw [Real.sqrt_pos, Real.sqrt_pos, mul_pos_iff_of_pos_left hsq]
        simp only [gt_iff_lt, hroot, Except.map, TwoSample.convert, mul_ite, mul_zero]

end Welch

/-! ## The change point -/

section Changepoint

theorem splitScore_affine (a : ℝ) (n split : Nat) (cumulative : ℝ) :
    splitScore Real.sqrt n split (a * cumulative) =
      |a| * splitScore Real.sqrt n split cumulative := by
  rw [splitScore, splitScore, abs_mul, mul_div_assoc]

/-- What the loop holds, in the new units. -/
noncomputable def scanned (a : ℝ) (state : ℝ × Best ℝ) : ℝ × Best ℝ :=
  (a * state.1, state.2.map fun v => |a| * v)

/-- One turn of the loop. -/
theorem scanStep_affine (ha : a ≠ 0) {series : List ℝ} (hne : series ≠ []) (segment : Nat)
    (state : ℝ × Best ℝ) (observation : ℝ × Nat) :
    scanStep Real.sqrt (series.map fun v => a * v + b) segment (scanned a state)
        (Prod.map (fun v => a * v + b) id observation) =
      scanned a (scanStep Real.sqrt series segment state observation) := by
  have hmono : StrictMono fun v : ℝ => |a| * v := fun v w h =>
    mul_lt_mul_of_pos_left h (abs_pos.mpr ha)
  have hcumulative : a * state.1 + (a * observation.1 + b - (a * mean series + b)) =
      a * (state.1 + (observation.1 - mean series)) := by ring
  rw [scanStep, scanStep, mean_affine a b hne, List.length_map]
  dsimp only [scanned, Prod.map, id]
  rw [hcumulative]
  split
  · rfl
  · rw [splitScore_affine]
    exact congrArg (Prod.mk _) (Best.offer_map hmono _ _ _)

/-- The loop keeps the split it keeps in the old units. -/
theorem bestSplit_affine (ha : a ≠ 0) (series : List ℝ) (segment : Nat) :
    bestSplit Real.sqrt (series.map fun v => a * v + b) segment =
      bestSplit Real.sqrt series segment := by
  rcases eq_or_ne series [] with rfl | hne
  · rfl
  · have hstart : scanned a (0, ⟨segment, none⟩) = (0, ⟨segment, none⟩) := by
      rw [scanned, mul_zero]
      rfl
    rw [bestSplit, bestSplit, List.zipIdx_map, List.foldl_map]
    conv_lhs => rw [← hstart]
    rw [List.foldl_hom (scanned a) fun state observation =>
      scanStep_affine b ha hne segment state observation]
    rfl

theorem length_of_zeroVariance {before after : List ℝ} {incompleteBeta : ℝ → ℝ → ℝ → ℝ}
    {column : Nat}
    (h : welchT Real.sqrt incompleteBeta before after = .error (.zeroVariance column)) :
    before ≠ [] ∧ after ≠ [] := by
  rw [welchT] at h
  split at h
  · cases h
  · next hbefore =>
    split at h
    · cases h
    · next hafter => constructor <;> rintro rfl <;> simp at hbefore hafter

variable (incompleteBeta : ℝ → ℝ → ℝ → ℝ)

theorem judge_affine (ha : a ≠ 0) (series : List ℝ) (index : Nat) (alpha : ℝ) :
    judge Real.sqrt incompleteBeta (series.map fun v => a * v + b) index alpha =
      (judge Real.sqrt incompleteBeta series index alpha).map
        (Option.map (ChangePoint.convert a b)) := by
  rw [judge, judge]
  dsimp only
  rw [← List.map_take, ← List.map_drop, welchT_affine b incompleteBeta ha]
  cases hwelch : welchT Real.sqrt incompleteBeta (series.take index) (series.drop index) with
  | ok test =>
    dsimp only [Except.map, TwoSample.convert]
    split
    · rfl
    · rfl
  | error error =>
    cases error with
    | zeroVariance column =>
      obtain ⟨hbefore, hafter⟩ := length_of_zeroVariance hwelch
      have hdifference : a * mean (series.drop index) + b - (a * mean (series.take index) + b) =
          a * (mean (series.drop index) - mean (series.take index)) := by ring
      dsimp only [Except.map]
      rw [mean_affine a b hbefore, mean_affine a b hafter, hdifference, abs_mul]
      simp only [gt_iff_lt, mul_pos_iff_of_pos_left (abs_pos.mpr ha)]
      split
      · rfl
      · rfl
    | _ => rfl

/-- Whatever becomes of a series becomes of it in other units, in those units. -/
theorem cusumChangepoint_affine (ha : a ≠ 0) (build : Build) (series : List (Option ℝ))
    (minSegment : UInt64) (alpha : ℝ) :
    cusumChangepoint Real.sqrt incompleteBeta build (series.map (Option.map fun v => a * v + b))
        minSegment alpha =
      (cusumChangepoint Real.sqrt incompleteBeta build series minSegment alpha).map
        (Except.map (Option.map (ChangePoint.convert a b))) := by
  rw [cusumChangepoint, cusumChangepoint, List.length_map]
  cases build.mul (max minSegment 2) 2 with
  | none => rfl
  | some need =>
    dsimp only [Option.bind_some]
    split
    · rfl
    · rw [checkFinite_map]
      cases checkFinite series with
      | error error => rfl
      | ok values =>
        dsimp only [Except.map]
        rw [bestSplit_affine b ha, judge_affine b incompleteBeta ha, List.length_map]
        split
        · rfl
        · rfl

end Changepoint

/-- Neither test depends on the units its observations are measured in: the means and
their difference are converted, the statistics turn with the direction of the units,
and what is significant, where the series shifts and every refusal are the same. -/
theorem units_do_not_matter (incompleteBeta : ℝ → ℝ → ℝ → ℝ) (a b : ℝ) (ha : a ≠ 0) :
    (∀ before after : List ℝ,
      welchT Real.sqrt incompleteBeta (before.map fun v => a * v + b)
          (after.map fun v => a * v + b) =
        (welchT Real.sqrt incompleteBeta before after).map (TwoSample.convert a b)) ∧
      ∀ (build : Build) (series : List (Option ℝ)) (minSegment : UInt64) (alpha : ℝ),
        cusumChangepoint Real.sqrt incompleteBeta build
            (series.map (Option.map fun v => a * v + b)) minSegment alpha =
          (cusumChangepoint Real.sqrt incompleteBeta build series minSegment alpha).map
            (Except.map (Option.map (ChangePoint.convert a b))) :=
  ⟨welchT_affine b incompleteBeta ha, cusumChangepoint_affine b incompleteBeta ha⟩

/-- Two pairs of temperatures, in Fahrenheit. -/
theorem units_do_not_matter_fahrenheit : ∃ test,
    welchT Real.sqrt (fun _ _ x => x) [0, 10] [20, 30] = .ok test ∧
      welchT Real.sqrt (fun _ _ x => x) [32, 50] [68, 86] = .ok (test.convert (9 / 5) 32) := by
  have hvaries : ¬(Constant [(0 : ℝ), 10] ∧ Constant [(20 : ℝ), 30]) := by simp [Constant]
  obtain ⟨test, hcelsius⟩ : ∃ test,
      welchT Real.sqrt (fun _ _ x => x) [0, 10] [20, 30] = .ok test :=
    ⟨_, welchT_eq _ _ le_rfl le_rfl hvaries⟩
  have h := (units_do_not_matter (fun _ _ x => x) (9 / 5) 32 (by norm_num)).1 [0, 10] [20, 30]
  rw [hcelsius] at h
  norm_num at h
  exact ⟨test, hcelsius, h⟩

end Samples
end Analysis
end IndieWorker
