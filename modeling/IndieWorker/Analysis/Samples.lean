import Mathlib.Analysis.Real.Sqrt

/-!
# Two samples

`mean`, `two_sided_t_p_value` and `welch_t` of `src/analysis/regression.rs`, over
any ordered field.  The square root and the incomplete beta function are
parameters; over the reals the square root is the real one.
-/

namespace IndieWorker
namespace Analysis

/-- Why a statistic could not be computed. -/
inductive StatsError where
  | tooFewObservations (got need : Nat)
  | lengthMismatch (left right : Nat)
  | zeroVariance (column : Nat)
  | singular
  | notFinite (index : Nat)
  deriving DecidableEq, Repr

namespace Samples

variable {K : Type} [Field K]

/-! ## The samples -/

def mean (values : List K) : K := values.sum / values.length

/-- The squared deviations from the mean, summed. -/
def squaredDeviations (values : List K) : K :=
  (values.map fun v => (v - mean values) * (v - mean values)).sum

/-- The sample variance. -/
def variance (values : List K) : K := squaredDeviations values / (values.length - 1)

/-- The part of a sample in the squared standard error. -/
def errorShare (values : List K) : K := variance values / values.length

/-- The squared standard error of the difference of the means. -/
def squaredError (before after : List K) : K := errorShare before + errorShare after

def welchDenominator (before after : List K) : K :=
  errorShare before ^ 2 / (before.length - 1) + errorShare after ^ 2 / (after.length - 1)

/-- The variance of both samples together. -/
def pooledVariance (before after : List K) : K :=
  ((before.length - 1) * variance before + (after.length - 1) * variance after) /
    (before.length + after.length - 2)

theorem squaredError_comm (before after : List K) :
    squaredError before after = squaredError after before := add_comm _ _

theorem welchDenominator_comm (before after : List K) :
    welchDenominator before after = welchDenominator after before := add_comm _ _

theorem pooledVariance_comm (before after : List K) :
    pooledVariance before after = pooledVariance after before := by
  rw [pooledVariance, pooledVariance, add_comm (((before.length : K) - 1) * _),
    add_comm (before.length : K)]

variable [LinearOrder K]

/-- The Welch-Satterthwaite degrees of freedom. -/
def welchDegrees (before after : List K) : K :=
  if welchDenominator before after > 0 then
    squaredError before after ^ 2 / welchDenominator before after
  else before.length + after.length - 2

theorem welchDegrees_comm (before after : List K) :
    welchDegrees before after = welchDegrees after before := by
  rw [welchDegrees, welchDegrees, welchDenominator_comm, squaredError_comm,
    add_comm (before.length : K)]

/-! ## The test -/

variable [IsStrictOrderedRing K]

/-- A p-value. -/
abbrev PValue (K : Type) [Field K] [LinearOrder K] [IsStrictOrderedRing K] : Type :=
  {p : K // 0 ≤ p ∧ p ≤ 1}

/-- `value.clamp(0.0, 1.0)`. -/
def clampUnit (value : K) : PValue K :=
  ⟨max 0 (min value 1), le_max_left _ _, max_le zero_le_one (min_le_right _ _)⟩

/-- The two-sided p-value of a t-statistic. -/
def twoSidedTPValue (incompleteBeta : K → K → K → K) (t df : K) : PValue K :=
  if df ≤ 0 then ⟨1, zero_le_one, le_rfl⟩
  else clampUnit (incompleteBeta (df / 2) (1 / 2) (df / (df + t * t)))

/-- The sign of the statistic does not matter. -/
theorem twoSidedTPValue_neg (incompleteBeta : K → K → K → K) (t df : K) :
    twoSidedTPValue incompleteBeta (-t) df = twoSidedTPValue incompleteBeta t df := by
  rw [twoSidedTPValue, neg_mul_neg, twoSidedTPValue]

theorem zero_mem_unit : 0 ≤ (0 : K) ∧ (0 : K) ≤ 1 := ⟨le_rfl, zero_le_one⟩

/-- The p-value of a correlation over `n` pairs. -/
def pearsonPValue (sqrt : K → K) (incompleteBeta : K → K → K → K) (r n : K) : PValue K :=
  if |r| ≥ 1 then ⟨0, zero_mem_unit⟩
  else twoSidedTPValue incompleteBeta (r * sqrt ((n - 2) / (1 - r * r))) (n - 2)

/-- The result of comparing two samples. -/
structure TwoSample (K : Type) [Field K] [LinearOrder K] [IsStrictOrderedRing K] where
  meanBefore : K
  meanAfter : K
  difference : K
  tStatistic : K
  degreesOfFreedom : K
  pValue : PValue K
  effectSize : K

section Program

variable (sqrt : K → K) (incompleteBeta : K → K → K → K)

/-- Welch's t-test of two samples. -/
def welchT (before after : List K) : Except StatsError (TwoSample K) :=
  if before.length < 2 then .error (.tooFewObservations before.length 2)
  else if after.length < 2 then .error (.tooFewObservations after.length 2)
  else
    let m1 := mean before
    let m2 := mean after
    if variance before = 0 ∧ variance after = 0 then .error (.zeroVariance 0)
    else
      let t := (m2 - m1) / sqrt (squaredError before after)
      let df := welchDegrees before after
      let pooled := sqrt (pooledVariance before after)
      .ok {
        meanBefore := m1
        meanAfter := m2
        difference := m2 - m1
        tStatistic := t
        degreesOfFreedom := df
        pValue := twoSidedTPValue incompleteBeta t df
        effectSize := if pooled > 0 then (m2 - m1) / pooled else 0 }

end Program

/-! ## The variance -/

/-- All observations are equal. -/
def Constant {α : Type} (values : List α) : Prop := ∀ v ∈ values, ∀ w ∈ values, v = w

theorem Constant.eq_replicate {α : Type} {values : List α} (h : Constant values) {v : α}
    (hv : v ∈ values) : values = List.replicate values.length v :=
  List.eq_replicate_of_mem fun w hw => h w hw v hv

theorem mean_replicate {n : Nat} (hn : n ≠ 0) (v : K) : mean (List.replicate n v) = v := by
  have hcast : (n : K) ≠ 0 := Nat.cast_ne_zero.mpr hn
  rw [mean, List.sum_replicate, List.length_replicate, nsmul_eq_mul, mul_div_cancel_left₀ _ hcast]

theorem squaredDeviations_nonneg (values : List K) : 0 ≤ squaredDeviations values := by
  apply List.sum_nonneg
  intro d hd
  obtain ⟨v, -, rfl⟩ := List.mem_map.mp hd
  exact mul_self_nonneg _

theorem squaredDeviations_eq_zero_iff (values : List K) :
    squaredDeviations values = 0 ↔ Constant values := by
  constructor
  · intro h
    have hmean : ∀ v ∈ values, v = mean values := by
      intro v hv
      have hnonneg : ∀ d ∈ values.map fun v => (v - mean values) * (v - mean values), 0 ≤ d := by
        intro d hd
        obtain ⟨w, -, rfl⟩ := List.mem_map.mp hd
        exact mul_self_nonneg _
      have hle := (List.single_le_sum hnonneg _ (List.mem_map_of_mem hv)).trans_eq h
      exact sub_eq_zero.mp (mul_self_eq_zero.mp (le_antisymm hle (mul_self_nonneg _)))
    intro v hv w hw
    rw [hmean v hv, ← hmean w hw]
  · intro h
    apply List.sum_eq_zero
    intro d hd
    obtain ⟨v, hv, rfl⟩ := List.mem_map.mp hd
    have hlength : values.length ≠ 0 := (List.length_pos_of_mem hv).ne'
    have hmean : mean values = v := by
      rw [h.eq_replicate hv, mean_replicate hlength]
    rw [hmean, sub_self, mul_zero]

theorem one_le_length_sub_one {values : List K} (hlength : 2 ≤ values.length) :
    (1 : K) ≤ values.length - 1 := by
  have hcast : ((2 : Nat) : K) ≤ values.length := Nat.cast_le.mpr hlength
  rw [Nat.cast_ofNat] at hcast
  linarith

theorem variance_nonneg {values : List K} (hlength : 2 ≤ values.length) :
    0 ≤ variance values :=
  div_nonneg (squaredDeviations_nonneg values)
    (zero_le_one.trans (one_le_length_sub_one hlength))

theorem variance_eq_zero_iff {values : List K} (hlength : 2 ≤ values.length) :
    variance values = 0 ↔ Constant values := by
  have hpos := zero_lt_one.trans_le (one_le_length_sub_one (K := K) hlength)
  rw [variance, div_eq_zero_iff, squaredDeviations_eq_zero_iff]
  exact or_iff_left hpos.ne'

theorem errorShare_nonneg {values : List K} (hlength : 2 ≤ values.length) :
    0 ≤ errorShare values :=
  div_nonneg (variance_nonneg hlength) (Nat.cast_nonneg _)

theorem errorShare_eq_zero_iff {values : List K} (hlength : 2 ≤ values.length) :
    errorShare values = 0 ↔ Constant values := by
  have hne : (values.length : K) ≠ 0 := Nat.cast_ne_zero.mpr (by omega)
  rw [errorShare, div_eq_zero_iff, variance_eq_zero_iff hlength]
  exact or_iff_left hne

/-! ## The degrees of freedom -/

section Degrees

variable {a b p q : K}

/-- The degrees of freedom are at most those of the pooled test. -/
theorem sq_add_le_mul_add (hp : 1 ≤ p) (hq : 1 ≤ q) :
    (a + b) ^ 2 ≤ (p + q) * (a ^ 2 / p + b ^ 2 / q) := by
  have hp₀ : 0 < p := zero_lt_one.trans_le hp
  have hq₀ : 0 < q := zero_lt_one.trans_le hq
  have hgap : (p + q) * (a ^ 2 / p + b ^ 2 / q) - (a + b) ^ 2 = (a * q - b * p) ^ 2 / (p * q) := by
    field_simp
    ring
  have hnonneg : 0 ≤ (a * q - b * p) ^ 2 / (p * q) :=
    div_nonneg (sq_nonneg _) (mul_pos hp₀ hq₀).le
  rw [← hgap] at hnonneg
  exact sub_nonneg.mp hnonneg

/-- The degrees of freedom are at least those of the smaller sample. -/
theorem min_mul_le_sq_add (ha : 0 ≤ a) (hb : 0 ≤ b) (hp : 1 ≤ p) (hq : 1 ≤ q) :
    min p q * (a ^ 2 / p + b ^ 2 / q) ≤ (a + b) ^ 2 := by
  have hshare : ∀ {x r : K}, 1 ≤ r → min p q ≤ r → min p q * (x ^ 2 / r) ≤ x ^ 2 := by
    intro x r hr hmin
    have hr₀ : 0 < r := zero_lt_one.trans_le hr
    rw [mul_div_assoc', div_le_iff₀ hr₀, mul_comm]
    exact mul_le_mul_of_nonneg_left hmin (sq_nonneg x)
  have hcross : 0 ≤ a * b := mul_nonneg ha hb
  calc min p q * (a ^ 2 / p + b ^ 2 / q)
      = min p q * (a ^ 2 / p) + min p q * (b ^ 2 / q) := mul_add _ _ _
    _ ≤ a ^ 2 + b ^ 2 := add_le_add (hshare hp (min_le_left p q)) (hshare hq (min_le_right p q))
    _ ≤ (a + b) ^ 2 := by nlinarith only [hcross]

end Degrees

section Varies

variable {before after : List K}

theorem squaredError_pos (hbefore : 2 ≤ before.length) (hafter : 2 ≤ after.length)
    (hvaries : ¬(Constant before ∧ Constant after)) : 0 < squaredError before after := by
  have hshares := add_nonneg (errorShare_nonneg (K := K) hbefore) (errorShare_nonneg hafter)
  apply lt_of_le_of_ne hshares
  intro hzero
  rw [eq_comm, add_eq_zero_iff_of_nonneg (errorShare_nonneg hbefore) (errorShare_nonneg hafter),
    errorShare_eq_zero_iff hbefore, errorShare_eq_zero_iff hafter] at hzero
  exact hvaries hzero

theorem squaredError_sq_le (hbefore : 2 ≤ before.length) (hafter : 2 ≤ after.length) :
    squaredError before after ^ 2 ≤
      (before.length + after.length - 2) * welchDenominator before after := by
  have hle := sq_add_le_mul_add (a := errorShare before) (b := errorShare after)
    (one_le_length_sub_one hbefore) (one_le_length_sub_one hafter)
  have hsum : (before.length : K) - 1 + (after.length - 1) = before.length + after.length - 2 := by
    ring
  rwa [hsum] at hle

theorem le_squaredError_sq (hbefore : 2 ≤ before.length) (hafter : 2 ≤ after.length) :
    ((min before.length after.length : Nat) - 1) * welchDenominator before after ≤
      squaredError before after ^ 2 := by
  have hle := min_mul_le_sq_add (errorShare_nonneg hbefore) (errorShare_nonneg hafter)
    (one_le_length_sub_one (K := K) hbefore) (one_le_length_sub_one hafter)
  rwa [min_sub_sub_right, ← Nat.cast_min] at hle

theorem welchDenominator_pos (hbefore : 2 ≤ before.length) (hafter : 2 ≤ after.length)
    (hvaries : ¬(Constant before ∧ Constant after)) : 0 < welchDenominator before after := by
  have hsq := pow_pos (squaredError_pos hbefore hafter hvaries) 2
  have hdf := one_le_length_sub_one (K := K) hbefore
  have hdf' := one_le_length_sub_one (K := K) hafter
  have hmul := hsq.trans_le (squaredError_sq_le hbefore hafter)
  exact pos_of_mul_pos_right hmul (by linarith)

theorem welchDegrees_mem (hbefore : 2 ≤ before.length) (hafter : 2 ≤ after.length)
    (hvaries : ¬(Constant before ∧ Constant after)) :
    ((min before.length after.length : Nat) : K) - 1 ≤ welchDegrees before after ∧
      welchDegrees before after ≤ before.length + after.length - 2 := by
  have hpos := welchDenominator_pos hbefore hafter hvaries
  rw [welchDegrees, if_pos hpos, le_div_iff₀ hpos, div_le_iff₀ hpos]
  exact ⟨le_squaredError_sq hbefore hafter, squaredError_sq_le hbefore hafter⟩

/-- The error paths are the short sample and the pair of constant samples. -/
theorem welchT_eq (sqrt : K → K) (incompleteBeta : K → K → K → K) (hbefore : 2 ≤ before.length)
    (hafter : 2 ≤ after.length) (hvaries : ¬(Constant before ∧ Constant after)) :
    welchT sqrt incompleteBeta before after = .ok {
      meanBefore := mean before
      meanAfter := mean after
      difference := mean after - mean before
      tStatistic := (mean after - mean before) / sqrt (squaredError before after)
      degreesOfFreedom := welchDegrees before after
      pValue := twoSidedTPValue incompleteBeta
        ((mean after - mean before) / sqrt (squaredError before after)) (welchDegrees before after)
      effectSize :=
        if sqrt (pooledVariance before after) > 0 then
          (mean after - mean before) / sqrt (pooledVariance before after)
        else 0 } := by
  have hvariances : ¬(variance before = 0 ∧ variance after = 0) := by
    rw [variance_eq_zero_iff hbefore, variance_eq_zero_iff hafter]
    exact hvaries
  rw [welchT, if_neg (not_lt.mpr hbefore), if_neg (not_lt.mpr hafter)]
  exact if_neg hvariances

theorem welchT_constant (sqrt : K → K) (incompleteBeta : K → K → K → K)
    (hbefore : 2 ≤ before.length) (hafter : 2 ≤ after.length) (hconstant : Constant before)
    (hconstant' : Constant after) :
    welchT sqrt incompleteBeta before after = .error (.zeroVariance 0) := by
  rw [welchT, if_neg (not_lt.mpr hbefore), if_neg (not_lt.mpr hafter)]
  exact if_pos ⟨(variance_eq_zero_iff hbefore).mpr hconstant,
    (variance_eq_zero_iff hafter).mpr hconstant'⟩

end Varies

/-- Over the reals nothing is divided by zero, the degrees of freedom are between
those of the smaller sample and those of both, and the samples may be exchanged. -/
theorem welchT_antisymmetric (incompleteBeta : ℝ → ℝ → ℝ → ℝ) {before after : List ℝ}
    (hbefore : 2 ≤ before.length) (hafter : 2 ≤ after.length)
    (hvaries : ¬(Constant before ∧ Constant after)) :
    0 < squaredError before after ∧ 0 < Real.sqrt (squaredError before after) ∧
      0 < welchDenominator before after ∧
      ∃ test, welchT Real.sqrt incompleteBeta before after = .ok test ∧
        (min before.length after.length : Nat) - 1 ≤ test.degreesOfFreedom ∧
        test.degreesOfFreedom ≤ before.length + after.length - 2 ∧
        welchT Real.sqrt incompleteBeta after before = .ok { test with
          meanBefore := test.meanAfter
          meanAfter := test.meanBefore
          difference := -test.difference
          tStatistic := -test.tStatistic
          effectSize := -test.effectSize } := by
  have herror := squaredError_pos hbefore hafter hvaries
  obtain ⟨hmin, hmax⟩ := welchDegrees_mem hbefore hafter hvaries
  refine ⟨herror, Real.sqrt_pos.mpr herror, welchDenominator_pos hbefore hafter hvaries, _,
    welchT_eq Real.sqrt incompleteBeta hbefore hafter hvaries, hmin, hmax, ?_⟩
  have hvaries' : ¬(Constant after ∧ Constant before) := fun h => hvaries h.symm
  have hdifference : mean before - mean after = -(mean after - mean before) := by ring
  rw [welchT_eq Real.sqrt incompleteBeta hafter hbefore hvaries', squaredError_comm after,
    welchDegrees_comm after, pooledVariance_comm after, hdifference, neg_div, neg_div,
    twoSidedTPValue_neg]
  congr 2
  split
  · rfl
  · exact neg_zero.symm

/-- Two observations that differ and two that do not. -/
theorem welchT_antisymmetric_pair : ∃ test,
    welchT Real.sqrt (fun _ _ _ => 1 / 2) [0, 1] [0, 0] = .ok test ∧
      1 ≤ test.degreesOfFreedom ∧ test.degreesOfFreedom ≤ 2 := by
  have hvaries : ¬(Constant [(0 : ℝ), 1] ∧ Constant [(0 : ℝ), 0]) := by
    intro h
    exact zero_ne_one (h.1 0 (List.mem_cons_self) 1 (List.mem_cons_of_mem _ List.mem_cons_self))
  obtain ⟨-, -, -, test, htest, hmin, hmax, -⟩ :=
    welchT_antisymmetric (fun _ _ _ => 1 / 2) (le_refl 2) (le_refl 2) hvaries
  norm_num at hmin hmax
  exact ⟨test, htest, hmin, hmax⟩

end Samples
end Analysis
end IndieWorker
