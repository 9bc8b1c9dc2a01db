import IndieWorker.Analysis.Response

/-!
# One predictor

With one predictor `ols` and `pearson` of `src/analysis/regression.rs` are two ways to ask
one question.
-/

namespace IndieWorker
namespace Analysis
namespace Samples

open Matrix

def Correlation.rSquared (c : Correlation ℝ (PValue ℝ)) : ℝ := c.r * c.r

/-! ## The sums -/

section Sums

variable {K α : Type} [Field K]

/-- Deviations from any two values, multiplied and summed. -/
theorem sum_mul_deviations (l : List α) (f g : α → K) (p q : K) :
    (l.map fun z => (f z - p) * (g z - q)).sum =
      (l.map fun z => f z * g z).sum - p * (l.map g).sum - q * (l.map f).sum +
        l.length * (p * q) := by
  induction l with
  | nil => simp
  | cons z l ih =>
    simp only [List.map_cons, List.sum_cons, List.length_cons, ih]
    push_cast
    ring

theorem length_mul_mean [CharZero K] {values : List K} (hne : values ≠ []) :
    values.length * mean values = values.sum := by
  have hlength : (values.length : K) ≠ 0 :=
    Nat.cast_ne_zero.mpr fun hzero => hne (List.length_eq_zero_iff.mp hzero)
  rw [mean, mul_div_cancel₀ _ hlength]

end Sums

/-- The rows of one predictor. -/
def single (x : List ℝ) : List (List ℝ) := x.map fun v => [v]

section Points

variable (points : List (ℝ × ℝ))

theorem single_fst : single (points.map Prod.fst) =
    (points.map fun z => ([z.1], z.2)).map Prod.fst := by
  rw [single, List.map_map, List.map_map]
  rfl

theorem map_snd : points.map Prod.snd = (points.map fun z => ([z.1], z.2)).map Prod.snd := by
  rw [List.map_map]
  rfl

/-- The normal equations of one predictor. -/
theorem xtx_single : xtx 2 (single (points.map Prod.fst)) (points.map Prod.snd) =
    !![(points.length : ℝ), (points.map Prod.fst).sum; (points.map Prod.fst).sum,
      (points.map fun z => z.1 * z.1).sum] := by
  ext a b
  rw [single_fst, map_snd, xtx_pairs, List.map_map]
  fin_cases a <;> fin_cases b <;> simp [Function.comp_def]

theorem xty_single : xty 2 (single (points.map Prod.fst)) (points.map Prod.snd) =
    ![(points.map Prod.snd).sum, (points.map fun z => z.1 * z.2).sum] := by
  ext a
  rw [single_fst, map_snd, xty_pairs, List.map_map]
  fin_cases a <;> simp [Function.comp_def]

theorem residualSumSquares_single (c d : ℝ) :
    residualSumSquares (single (points.map Prod.fst)) (points.map Prod.snd) [c, d] =
      (points.map fun z => (z.2 - (c + z.1 * d)) * (z.2 - (c + z.1 * d))).sum := by
  rw [single_fst, map_snd, residualSumSquares_pairs, List.map_map]
  simp [Function.comp_def]

end Points

/-- Observations of one predictor, and the inverse of their Gram matrix. -/
structure OnePredictor (points : List (ℝ × ℝ)) (inverse : Matrix (Fin 2) (Fin 2) ℝ) : Prop where
  three : 3 ≤ points.length
  left : inverse * xtx 2 (single (points.map Prod.fst)) (points.map Prod.snd) = 1
  right : xtx 2 (single (points.map Prod.fst)) (points.map Prod.snd) * inverse = 1

section Line

variable {points : List (ℝ × ℝ)} {inverse : Matrix (Fin 2) (Fin 2) ℝ}

theorem onePredictor {incompleteBeta : ℝ → ℝ → ℝ → ℝ} {fit : OlsFit ℝ}
    (h : ols Real.sqrt incompleteBeta (single (points.map Prod.fst)) (points.map Prod.snd) =
      .ok fit) :
    ∃ inverse, OnePredictor points inverse ∧
      olsFit Real.sqrt incompleteBeta (single (points.map Prod.fst)) (points.map Prod.snd)
        inverse = fit := by
  obtain ⟨-, -, hmore, inverse, hinverse, hfit⟩ := ols_eq_ok h
  have hlength : (single (points.map Prod.fst)).length = points.length := by
    rw [single, List.length_map, List.length_map]
  have hparameters : parameters (single (points.map Prod.fst)) = 2 := by
    cases points with
    | nil => cases hmore
    | cons z points => rfl
  rw [hlength, hparameters] at hmore
  revert hinverse hfit inverse
  rw [hparameters]
  intro inverse hinverse hfit
  obtain ⟨hleft, hright⟩ := GaussJordan.invert_inverse (by positivity) hinverse
  exact ⟨inverse, ⟨hmore, hleft, hright⟩, hfit⟩

/-- The mean of the predictor, the mean of the response and the sums of the deviations, in
terms of the sums of the points. -/
theorem OnePredictor.sums (h : OnePredictor points inverse) :
    points.length * mean (points.map Prod.fst) = (points.map Prod.fst).sum ∧
      points.length * mean (points.map Prod.snd) = (points.map Prod.snd).sum ∧
      squaredDeviations (points.map Prod.fst) = (points.map fun z => z.1 * z.1).sum -
        mean (points.map Prod.fst) * (points.map Prod.fst).sum ∧
      crossDeviations (points.map Prod.fst) (points.map Prod.snd) =
        (points.map fun z => z.1 * z.2).sum -
          mean (points.map Prod.fst) * (points.map Prod.snd).sum := by
  have hne : points ≠ [] := by
    rintro rfl
    exact absurd h.three (by decide)
  have hx : (points.map Prod.fst).length * mean (points.map Prod.fst) = _ :=
    length_mul_mean (by rwa [ne_eq, List.map_eq_nil_iff])
  have hy : (points.map Prod.snd).length * mean (points.map Prod.snd) = _ :=
    length_mul_mean (by rwa [ne_eq, List.map_eq_nil_iff])
  rw [List.length_map] at hx hy
  have hsquares := sum_mul_deviations points Prod.fst Prod.fst (mean (points.map Prod.fst))
    (mean (points.map Prod.fst))
  have hcross := sum_mul_deviations points Prod.fst Prod.snd (mean (points.map Prod.fst))
    (mean (points.map Prod.snd))
  refine ⟨hx, hy, ?_, ?_⟩
  · rw [squaredDeviations, List.map_map]
    refine Eq.trans hsquares ?_
    linear_combination mean (points.map Prod.fst) * hx
  · rw [crossDeviations, List.zip_map', List.map_map]
    refine Eq.trans hcross ?_
    linear_combination mean (points.map Prod.snd) * hx

/-- The entries of the inverse. -/
theorem OnePredictor.inverse_entries (h : OnePredictor points inverse) :
    inverse 1 1 * squaredDeviations (points.map Prod.fst) = 1 ∧
      inverse 1 0 = -(mean (points.map Prod.fst) * inverse 1 1) ∧
      inverse 0 1 = -(mean (points.map Prod.fst) * inverse 1 1) ∧
      points.length * inverse 0 0 = 1 - (points.map Prod.fst).sum * inverse 1 0 := by
  obtain ⟨hx, -, hsquares, -⟩ := h.sums
  have hlength : (points.length : ℝ) ≠ 0 := by
    have := h.three
    exact Nat.cast_ne_zero.mpr (by omega)
  have hleft := fun a b => congrFun (congrFun h.left a) b
  have hright := fun a b => congrFun (congrFun h.right a) b
  rw [xtx_single] at hleft hright
  have hone := hleft 1 0
  have htwo := hleft 1 1
  have hthree := hright 0 1
  have hfour := hright 0 0
  simp [Matrix.mul_apply, Fin.sum_univ_two] at hone htwo hthree hfour
  have hlower : inverse 1 0 = -(mean (points.map Prod.fst) * inverse 1 1) :=
    mul_left_cancel₀ hlength (by linear_combination hone + inverse 1 1 * hx)
  refine ⟨?_, hlower, ?_, ?_⟩
  · rw [hsquares]
    linear_combination htwo - (points.map Prod.fst).sum * hlower
  · exact mul_left_cancel₀ hlength (by linear_combination hthree + inverse 1 1 * hx)
  · linear_combination hfour

/-- The slope and the intercept. -/
theorem OnePredictor.solve_eq (h : OnePredictor points inverse) :
    solve (single (points.map Prod.fst)) (points.map Prod.snd) inverse =
      [mean (points.map Prod.snd) - inverse 1 1 *
          crossDeviations (points.map Prod.fst) (points.map Prod.snd) * mean (points.map Prod.fst),
        inverse 1 1 * crossDeviations (points.map Prod.fst) (points.map Prod.snd)] := by
  obtain ⟨hx, hy, -, hcross⟩ := h.sums
  obtain ⟨-, hlower, hupper, hfirst⟩ := h.inverse_entries
  have hlength : (points.length : ℝ) ≠ 0 := by
    have := h.three
    exact Nat.cast_ne_zero.mpr (by omega)
  rw [solve, xty_single, hcross]
  simp only [List.ofFn_succ, List.ofFn_zero, Fin.sum_univ_two, Fin.succ_zero_eq_one,
    Matrix.cons_val_zero, Matrix.cons_val_one]
  congr 1
  · refine mul_left_cancel₀ hlength ?_
    rw [hupper]
    linear_combination (points.map Prod.snd).sum * hfirst -
      (points.map Prod.fst).sum * (points.map Prod.snd).sum * hlower - hy -
      (points.map Prod.snd).sum * mean (points.map Prod.fst) * inverse 1 1 * hx
  · congr 1
    rw [hlower]
    ring

/-- The deviations of the points from their means. -/
theorem sums_of_deviations (points : List (ℝ × ℝ)) :
    let pairs := points.map fun z =>
      (z.1 - mean (points.map Prod.fst), z.2 - mean (points.map Prod.snd))
    (pairs.map fun d => d.1 * d.1).sum = squaredDeviations (points.map Prod.fst) ∧
      (pairs.map fun d => d.2 * d.2).sum = squaredDeviations (points.map Prod.snd) ∧
      (pairs.map fun d => d.1 * d.2).sum =
        crossDeviations (points.map Prod.fst) (points.map Prod.snd) := by
  intro pairs
  refine ⟨?_, ?_, ?_⟩
  · rw [squaredDeviations, List.map_map, List.map_map]
    rfl
  · rw [squaredDeviations, List.map_map, List.map_map]
    rfl
  · rw [crossDeviations, List.zip_map', List.map_map, List.map_map]
    rfl

/-- What the line leaves unexplained. -/
theorem OnePredictor.residualSumSquares_eq (h : OnePredictor points inverse) :
    residualSumSquares (single (points.map Prod.fst)) (points.map Prod.snd)
        (solve (single (points.map Prod.fst)) (points.map Prod.snd) inverse) =
      squaredDeviations (points.map Prod.snd) - inverse 1 1 *
        crossDeviations (points.map Prod.fst) (points.map Prod.snd) ^ 2 := by
  obtain ⟨hunit, -⟩ := h.inverse_entries
  obtain ⟨hx, hy, hcross⟩ := sums_of_deviations points
  have hresiduals := sum_residuals (points.map fun z =>
      (z.1 - mean (points.map Prod.fst), z.2 - mean (points.map Prod.snd)))
    (inverse 1 1 * crossDeviations (points.map Prod.fst) (points.map Prod.snd))
  rw [hx, hy, hcross, List.map_map] at hresiduals
  rw [h.solve_eq, residualSumSquares_single]
  refine Eq.trans (congrArg List.sum (List.map_congr_left fun z _ => ?_)) (hresiduals.trans ?_)
  · rw [Function.comp_apply]
    ring
  · linear_combination inverse 1 1 *
      crossDeviations (points.map Prod.fst) (points.map Prod.snd) ^ 2 * hunit

theorem OnePredictor.vary (h : OnePredictor points inverse)
    (hy : ¬ Constant (points.map Prod.snd)) :
    Vary (points.map Prod.fst) (points.map Prod.snd) where
  length := by rw [List.length_map, List.length_map]
  three := by rw [List.length_map]; exact h.three
  left hconstant := by
    obtain ⟨hunit, -⟩ := h.inverse_entries
    rw [(squaredDeviations_eq_zero_iff _).mpr hconstant, mul_zero] at hunit
    exact zero_ne_one hunit
  right := hy

/-- The inverse and the residuals, in terms of the correlation. -/
theorem OnePredictor.in_terms_of_coefficient (h : OnePredictor points inverse)
    (hvary : Vary (points.map Prod.fst) (points.map Prod.snd)) :
    inverse 1 1 = (squaredDeviations (points.map Prod.fst))⁻¹ ∧
      inverse 1 1 * crossDeviations (points.map Prod.fst) (points.map Prod.snd) =
        coefficient (points.map Prod.fst) (points.map Prod.snd) *
          (√(squaredDeviations (points.map Prod.snd)) /
            √(squaredDeviations (points.map Prod.fst))) ∧
      residualSumSquares (single (points.map Prod.fst)) (points.map Prod.snd)
          (solve (single (points.map Prod.fst)) (points.map Prod.snd) inverse) =
        squaredDeviations (points.map Prod.snd) *
          (1 - coefficient (points.map Prod.fst) (points.map Prod.snd) ^ 2) := by
  obtain ⟨hx, hy⟩ := hvary.squaredDeviations_pos
  obtain ⟨hunit, -⟩ := h.inverse_entries
  have hinverse := eq_inv_of_mul_eq_one_left hunit
  have hsq := hvary.coefficient_sq
  have hrootx := Real.sq_sqrt hx.le
  have hrootx' := (Real.sqrt_pos.mpr hx).ne'
  have hrooty' := (Real.sqrt_pos.mpr hy).ne'
  refine ⟨hinverse, ?_, ?_⟩
  · rw [hinverse, coefficient]
    field_simp
    rw [hrootx]
    exact mul_comm _ _
  · rw [h.residualSumSquares_eq, hinverse, ← hsq]
    field_simp

/-- The statistic of the slope is that of the correlation. -/
theorem slope_statistic {r s q df : ℝ} (hs : 0 < s) (hq : 0 < q) (hdf : 0 < df)
    (hr : |r| < 1) :
    0 < √(max (q * (1 - r ^ 2) / df * s⁻¹) 0) ∧
      r * (√q / √s) / √(max (q * (1 - r ^ 2) / df * s⁻¹) 0) = r * √(df / (1 - r * r)) := by
  have hgap : 0 < 1 - r ^ 2 := by
    rw [sub_pos, sq_lt_one_iff_abs_lt_one]
    exact hr
  have hpos : 0 < q * (1 - r ^ 2) / df * s⁻¹ := by positivity
  rw [max_eq_left hpos.le]
  refine ⟨Real.sqrt_pos.mpr hpos, ?_⟩
  rw [mul_div_assoc, ← Real.sqrt_div hq.le, ← Real.sqrt_div (by positivity)]
  congr 2
  rw [← sq]
  field_simp

variable (incompleteBeta : ℝ → ℝ → ℝ → ℝ)

/-- A slope is as significant as the correlation, unless the points lie on the line. -/
theorem OnePredictor.significance (h : OnePredictor points inverse)
    (hvary : Vary (points.map Prod.fst) (points.map Prod.snd)) :
    let fit := olsFit Real.sqrt incompleteBeta (single (points.map Prod.fst))
      (points.map Prod.snd) inverse
    let r := coefficient (points.map Prod.fst) (points.map Prod.snd)
    (|r| < 1 →
      fit.tStatistics[1]? = some (r * √((points.length - 2) / (1 - r * r))) ∧
        fit.pValues[1]? =
          some (pearsonPValue Real.sqrt incompleteBeta r points.length)) ∧
      (|r| = 1 → fit.tStatistics = [0, 0]) := by
  intro fit r
  obtain ⟨hinverse, hslope, hrss⟩ := h.in_terms_of_coefficient hvary
  change _ = r * _ at hslope
  change _ = _ * (1 - r ^ 2) at hrss
  obtain ⟨hx, hy⟩ := hvary.squaredDeviations_pos
  have hthree : (2 : ℝ) < points.length := by
    have := h.three
    exact_mod_cast (by omega : 2 < points.length)
  have hdf : (((single (points.map Prod.fst)).length - 2 : Nat) : ℝ) = points.length - 2 := by
    rw [single, List.length_map, List.length_map, Nat.cast_sub (by have := h.three; omega)]
    rfl
  have herrors : fit.standardErrors = [
      √(max (squaredDeviations (points.map Prod.snd) * (1 - r ^ 2) / (points.length - 2) *
        inverse 0 0) 0),
      √(max (squaredDeviations (points.map Prod.snd) * (1 - r ^ 2) / (points.length - 2) *
        (squaredDeviations (points.map Prod.fst))⁻¹) 0)] := by
    show List.ofFn (fun a => √(max (residualSumSquares _ _ (solve _ _ inverse) /
      (((single (points.map Prod.fst)).length - 2 : Nat) : ℝ) * inverse a a) 0)) = _
    rw [hrss, hdf, ← hinverse]
    simp [List.ofFn_succ]
  have hcoefficients := h.solve_eq
  rw [hslope] at hcoefficients
  have hstatistics : fit.tStatistics =
      (fit.coefficients.zip fit.standardErrors).map fun z =>
        if z.2 > 0 then z.1 / z.2 else 0 := rfl
  have hpValues : fit.pValues = fit.tStatistics.map fun t =>
      twoSidedTPValue incompleteBeta t
        (((single (points.map Prod.fst)).length - 2 : Nat) : ℝ) := rfl
  have hfit : fit.coefficients =
      solve (single (points.map Prod.fst)) (points.map Prod.snd) inverse := rfl
  rw [hpValues, hdf, hstatistics, hfit, hcoefficients, herrors]
  constructor
  · intro hr
    obtain ⟨herror, hstatistic⟩ := slope_statistic hx hy (sub_pos.mpr hthree) hr
    simp only [List.zip_cons_cons, List.zip_nil_right, List.map_cons, List.map_nil,
      List.getElem?_cons_succ, List.getElem?_cons_zero, gt_iff_lt, if_pos herror, hstatistic]
    rw [pearsonPValue, if_neg (not_le.mpr hr)]
    exact ⟨trivial, rfl⟩
  · intro hr
    have hzero : 1 - r ^ 2 = 0 := by rw [← sq_abs, hr, one_pow, sub_self]
    simp [hzero]

end Line

/-- Where the response varies, the correlation exists and says what the fit says: the
share that is explained is its square, the slope is the coefficient in the units of the
samples, and both are equally significant.  Points on a line are the exception: their
correlation is certain and their slope has statistic zero. -/
theorem one_predictor_agrees (incompleteBeta : ℝ → ℝ → ℝ → ℝ) {x y : List ℝ} {fit : OlsFit ℝ}
    (h : ols Real.sqrt incompleteBeta (single x) y = .ok fit) :
    (Constant y → fit.coefficients = [mean y, 0] ∧ fit.rSquared = 0 ∧
        pearson Real.sqrt incompleteBeta x y = .error (.zeroVariance 1)) ∧
      (¬ Constant y → ∃ c slope, pearson Real.sqrt incompleteBeta x y = .ok c ∧
        c.observations = fit.observations ∧ fit.rSquared = c.rSquared ∧
        slope = c.r * (√(squaredDeviations y) / √(squaredDeviations x)) ∧
        fit.coefficients = [mean y - slope * mean x, slope] ∧
        (|c.r| < 1 →
          fit.tStatistics[1]? = some (c.r * √((x.length - 2) / (1 - c.rSquared))) ∧
            fit.pValues[1]? = some c.pValue) ∧
        (|c.r| = 1 → fit.tStatistics = [0, 0] ∧ c.pValue.val = 0)) := by
  obtain ⟨points, rfl, rfl⟩ : ∃ points : List (ℝ × ℝ),
      x = points.map Prod.fst ∧ y = points.map Prod.snd := by
    obtain ⟨hlength, -⟩ := ols_eq_ok h
    rw [single, List.length_map] at hlength
    exact ⟨x.zip y, (List.map_fst_zip hlength.le).symm, (List.map_snd_zip hlength.ge).symm⟩
  obtain ⟨inverse, hpredictor, rfl⟩ := onePredictor h
  have hlengths : (points.map Prod.fst).length = (points.map Prod.snd).length := by
    rw [List.length_map, List.length_map]
  have hthree : 3 ≤ (points.map Prod.fst).length := by
    rw [List.length_map]
    exact hpredictor.three
  obtain ⟨hunit, -⟩ := hpredictor.inverse_entries
  have hx : squaredDeviations (points.map Prod.fst) ≠ 0 := by
    intro hzero
    rw [hzero, mul_zero] at hunit
    exact zero_ne_one hunit
  have hrSquared : (olsFit Real.sqrt incompleteBeta (single (points.map Prod.fst))
      (points.map Prod.snd) inverse).rSquared =
        if squaredDeviations (points.map Prod.snd) > 0 then
          1 - residualSumSquares (single (points.map Prod.fst)) (points.map Prod.snd)
            (solve (single (points.map Prod.fst)) (points.map Prod.snd) inverse) /
              squaredDeviations (points.map Prod.snd)
        else 0 := rfl
  have hcoefficients : (olsFit Real.sqrt incompleteBeta (single (points.map Prod.fst))
      (points.map Prod.snd) inverse).coefficients =
        solve (single (points.map Prod.fst)) (points.map Prod.snd) inverse := rfl
  constructor
  · intro hconstant
    have hy := (squaredDeviations_eq_zero_iff _).mpr hconstant
    have hcross : crossDeviations (points.map Prod.fst) (points.map Prod.snd) = 0 := by
      obtain ⟨hxx, hyy, hxy⟩ := sums_of_deviations points
      have hle := (sum_products (hxx ▸ lt_of_le_of_ne (squaredDeviations_nonneg _) hx.symm)).1
      rw [hxx, hyy, hxy, hy, mul_zero] at hle
      exact pow_eq_zero_iff two_ne_zero |>.mp (le_antisymm hle (sq_nonneg _))
    refine ⟨?_, ?_, ?_⟩
    · rw [hcoefficients, hpredictor.solve_eq, hcross, mul_zero, zero_mul, sub_zero]
    · rw [hrSquared, hy, if_neg (lt_irrefl 0)]
    · rw [pearson_of_length _ _ hlengths hthree, if_neg hx, if_pos hy]
  · intro hvaries
    have hvary := hpredictor.vary hvaries
    obtain ⟨-, hslope, hrss⟩ := hpredictor.in_terms_of_coefficient hvary
    obtain ⟨hless, hline⟩ := hpredictor.significance incompleteBeta hvary
    have hy := hvary.squaredDeviations_pos.2
    refine ⟨_, _, hvary.pearson_eq incompleteBeta, ?_, ?_, rfl, ?_, ?_, ?_⟩
    · show (points.map Prod.fst).length = (single (points.map Prod.fst)).length
      simp [single]
    · rw [hrSquared, if_pos hy, hrss, mul_div_cancel_left₀ _ hy.ne', Correlation.rSquared]
      ring
    · rw [hcoefficients, hpredictor.solve_eq, hslope]
    · intro hr
      rw [List.length_map]
      exact hless hr
    · intro hr
      refine ⟨hline hr, ?_⟩
      show (pearsonPValue Real.sqrt incompleteBeta _ _).val = 0
      rw [pearsonPValue, if_pos (le_of_eq hr.symm)]

/-- Three points on a line with slope two. -/
theorem one_predictor_agrees_rising : ∃ fit c,
    ols Real.sqrt (fun _ _ x => x) (single [-1, 0, 1]) [-2, 0, 2] = .ok fit ∧
      pearson Real.sqrt (fun _ _ x => x) [-1, 0, 1] [-2, 0, 2] = .ok c ∧
      fit.rSquared = c.rSquared := by
  have hgram : xtx (parameters (single [-1, 0, 1])) (single [-1, 0, 1]) [-2, 0, 2] =
      (!![3, 0; 0, 2] : Matrix (Fin 2) (Fin 2) ℝ) := by
    have hpoints := xtx_single [(-1, -2), (0, 0), (1, 2)]
    norm_num at hpoints
    exact hpoints
  obtain ⟨inverse, hinverse⟩ : ∃ inverse,
      invert (xtx (parameters (single [-1, 0, 1])) (single [-1, 0, 1]) [-2, 0, 2]) =
        some (inverse : Matrix (Fin 2) (Fin 2) ℝ) := by
    rw [hgram]
    exact invert_diagonal (by norm_num) (by norm_num) (by simp)
  have hfit : ols Real.sqrt (fun _ _ x => x) (single [-1, 0, 1]) [-2, 0, 2] =
      .ok (olsFit Real.sqrt (fun _ _ x => x) (single [-1, 0, 1]) [-2, 0, 2] inverse) := by
    rw [ols_of_shape rfl (by simp [single, predictors]) (by simp [single, parameters, predictors]),
      hinverse]
    rfl
  have hvaries : ¬ Constant [(-2 : ℝ), 0, 2] := fun h => by
    simpa using h (-2) (by simp) 0 (by simp)
  obtain ⟨c, slope, hc, -, hrSquared, -⟩ := (one_predictor_agrees _ hfit).2 hvaries
  exact ⟨_, c, hfit, hc, hrSquared⟩

end Samples
end Analysis
end IndieWorker
