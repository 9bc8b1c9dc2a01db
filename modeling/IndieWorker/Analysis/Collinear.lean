import IndieWorker.Analysis.Ols

/-!
# Collinearity and units

When the verdict of `ols` that a design is singular means that its columns are
dependent, and when it survives a change of units.
-/

namespace IndieWorker
namespace Analysis
namespace Samples

open Matrix

variable {K : Type} [Field K]

/-- Some combination of the intercept and the predictors vanishes. -/
def Dependent (rows : List (List K)) : Prop :=
  ∃ v, v ≠ 0 ∧ designMatrix rows.length (parameters rows) rows *ᵥ v = 0

theorem not_dependent_iff {rows : List (List K)} : ¬Dependent rows ↔
    LeastSquares.Independent (designMatrix rows.length (parameters rows) rows) := by
  rw [Dependent, LeastSquares.Independent]
  constructor
  · exact fun h v hv => by_contra fun hne => h ⟨v, hne, hv⟩
  · intro h hex
    obtain ⟨v, hne, hv⟩ := hex
    exact hne (h v hv)

/-- The observations with a predictor measured in another unit. -/
def rescale (k : Nat) (c : K) (rows : List (List K)) : List (List K) :=
  rows.map fun row => row.modify k (· * c)

/-- What a change of unit multiplies each column by. -/
def unit (n k : Nat) (c : K) : Fin n → K := fun a => if a.val = k + 1 then c else 1

theorem unit_ne_zero {n k : Nat} {c : K} (hc : c ≠ 0) (a : Fin n) : unit n k c a ≠ 0 := by
  rw [unit]
  split
  · exact hc
  · exact one_ne_zero

theorem length_rescale (k : Nat) (c : K) (rows : List (List K)) :
    (rescale k c rows).length = rows.length := List.length_map _

theorem predictors_rescale (k : Nat) (c : K) (rows : List (List K)) :
    predictors (rescale k c rows) = predictors rows := by
  cases rows with
  | nil => rfl
  | cons row rows => exact List.length_modify _ _ _

theorem parameters_rescale (k : Nat) (c : K) (rows : List (List K)) :
    parameters (rescale k c rows) = parameters rows := by
  rw [parameters, predictors_rescale, parameters]

theorem getD_modify {f : K → K} (hf : f 0 = 0) (l : List K) (k a : Nat) :
    (l.modify k f).getD a 0 = if a = k then f (l.getD a 0) else l.getD a 0 := by
  rw [List.getD_eq_getElem?_getD, List.getElem?_modify, List.getD_eq_getElem?_getD]
  by_cases hk : a = k
  · subst hk
    cases l[a]? with
    | none => simp [hf]
    | some v => simp
  · simp [hk, Ne.symm hk]

section Shape

variable {m n : Nat} {rows : List (List K)} {y : List K}

theorem WellShaped.rescale (h : WellShaped m n rows y) (k : Nat) (c : K) :
    WellShaped m n (rescale k c rows) y := by
  refine ⟨?_, h.length_response, ?_⟩
  · rw [length_rescale, h.length_rows]
  · intro row hmem
    obtain ⟨source, hsource, rfl⟩ := List.mem_map.mp hmem
    rw [List.length_modify]
    exact h.length_row source hsource

theorem WellShaped.designMatrix_rescale (h : WellShaped m n rows y) (k : Nat) (c : K) :
    designMatrix m n (Samples.rescale k c rows) =
      designMatrix m n rows * diagonal (unit n k c) := by
  ext i a
  have hi : i.val < rows.length := by
    rw [h.length_rows]
    exact i.isLt
  have hi' : i.val < (Samples.rescale k c rows).length := by
    rw [length_rescale]
    exact hi
  obtain ⟨a, ha⟩ := a
  rw [Matrix.mul_diagonal]
  cases a with
  | zero =>
    rw [(h.rescale k c).designMatrix_zero i ha, h.designMatrix_zero i ha, unit, if_neg, mul_one]
    show ¬0 = k + 1
    omega
  | succ a =>
    rw [(h.rescale k c).designMatrix_succ i ha, h.designMatrix_succ i ha,
      List.getD_eq_getElem _ _ hi, List.getD_eq_getElem _ _ hi']
    simp only [Samples.rescale, List.getElem_map]
    rw [getD_modify (zero_mul c), unit, mul_ite, mul_one]
    simp only [Nat.add_right_cancel_iff]

/-- No change of unit makes columns dependent. -/
theorem dependent_rescale (hlength : rows.length = y.length)
    (hrow : ∀ row ∈ rows, row.length = predictors rows) (k : Nat) {c : K} (hc : c ≠ 0) :
    Dependent (rescale k c rows) ↔ Dependent rows := by
  rw [← not_iff_not, not_dependent_iff, not_dependent_iff, length_rescale, parameters_rescale,
    (wellShaped hlength hrow).designMatrix_rescale]
  exact LeastSquares.independent_scale (unit_ne_zero hc)

end Shape

/-! ## The minors -/

variable [LinearOrder K]

section Results

variable [IsStrictOrderedRing K] {rows : List (List K)} {y : List K}

/-- The leading minors grow by the pivots of the sums that the program forms. -/
theorem minorsReach_iff (hlength : rows.length = y.length)
    (hrow : ∀ row ∈ rows, row.length = predictors rows) :
    MinorsReach rows ↔
      ∀ a, 1 / 10 ^ 12 ≤ |GaussJordan.pivot (xtx (parameters rows) rows y) a| := by
  have htolerance : (0 : K) < 1 / 10 ^ 12 := by positivity
  rw [GaussJordan.forall_pivot_iff htolerance, (wellShaped hlength hrow).xtx]
  rfl

/-- The columns are independent exactly when no pivot vanishes. -/
theorem not_dependent_iff_pivots (hlength : rows.length = y.length)
    (hrow : ∀ row ∈ rows, row.length = predictors rows) :
    ¬Dependent rows ↔ ∀ a, GaussJordan.pivot (xtx (parameters rows) rows y) a ≠ 0 := by
  rw [not_dependent_iff, (wellShaped hlength hrow).xtx,
    LeastSquares.forall_pivot_gram_ne_zero_iff]

theorem MinorsReach.not_dependent (h : MinorsReach rows) (hlength : rows.length = y.length)
    (hrow : ∀ row ∈ rows, row.length = predictors rows) : ¬Dependent rows := by
  rw [not_dependent_iff_pivots hlength hrow]
  intro a
  have htolerance : (0 : K) < 1 / 10 ^ 12 := by positivity
  exact abs_pos.mp (htolerance.trans_le ((minorsReach_iff hlength hrow).mp h a))

variable (sqrt : K → K) (incompleteBeta : K → K → K → K)

theorem ols_fits_iff (hlength : rows.length = y.length)
    (hrow : ∀ row ∈ rows, row.length = predictors rows) (hmore : parameters rows < rows.length) :
    (∃ fit, ols sqrt incompleteBeta rows y = .ok fit) ↔ MinorsReach rows := by
  rw [ols_of_shape hlength hrow hmore, minorsReach_iff hlength hrow]
  cases hinverse : invert (xtx (parameters rows) rows y) with
  | none =>
    obtain ⟨a, ha⟩ := GaussJordan.invert_eq_none_iff.mp hinverse
    refine ⟨fun h => ?_, fun h => absurd (h a) (not_le.mpr ha)⟩
    obtain ⟨fit, hfit⟩ := h
    cases hfit
  | some inverse =>
    exact ⟨fun _ => (GaussJordan.invert_eq_some_iff.mp hinverse).2, fun _ => ⟨_, rfl⟩⟩

theorem ols_singular_iff (hlength : rows.length = y.length)
    (hrow : ∀ row ∈ rows, row.length = predictors rows) (hmore : parameters rows < rows.length) :
    ols sqrt incompleteBeta rows y = .error .singular ↔ ¬MinorsReach rows := by
  rw [← ols_fits_iff sqrt incompleteBeta hlength hrow hmore, ols_of_shape hlength hrow hmore]
  cases invert (xtx (parameters rows) rows y) with
  | none => simp
  | some inverse => simp

variable {sqrt : K → K} {incompleteBeta : K → K → K → K}

/-- Two fits of one response in two units differ by the unit. -/
theorem coefficients_rescale {k : Nat} {c : K} (hc : c ≠ 0) {fit fit' : OlsFit K}
    (h : ols sqrt incompleteBeta rows y = .ok fit)
    (h' : ols sqrt incompleteBeta (rescale k c rows) y = .ok fit') :
    fit'.coefficients = fit.coefficients.modify (k + 1) (· / c) := by
  obtain ⟨hlength, hrow, -, -⟩ := ols_eq_ok h
  have hshape := wellShaped hlength hrow
  obtain ⟨hcoefficients, -, hnormal⟩ := ols_solves h
  obtain ⟨hcoefficients', hindependent', hnormal'⟩ := ols_solves h'
  rw [parameters_rescale] at hcoefficients'
  rw [parameters_rescale, length_rescale, hshape.designMatrix_rescale] at hnormal' hindependent'
  have hscaled := LeastSquares.normalEquations_scale hnormal (unit_ne_zero (k := k) hc)
  have hlength' : (fit.coefficients.modify (k + 1) (· / c)).length = parameters rows := by
    rw [List.length_modify, hcoefficients]
  refine entries_injective hcoefficients' hlength' ?_
  rw [LeastSquares.normalEquations_unique hindependent' hscaled hnormal']
  funext a
  rw [entries, entries, getD_modify (zero_div c), unit]
  split
  · rfl
  · exact div_one _

/-- The verdict means collinearity, and a change of unit keeps a fit, exactly when
the minors of independent columns do not shrink below the bound. -/
theorem singular_iff_dependent_iff (sqrt : K → K) (incompleteBeta : K → K → K → K)
    (hlength : rows.length = y.length)
    (hrow : ∀ row ∈ rows, row.length = predictors rows) (hmore : parameters rows < rows.length) :
    ((ols sqrt incompleteBeta rows y = .error .singular ↔ Dependent rows) ↔
      Dependent rows ∨ MinorsReach rows) ∧
    ∀ k < predictors rows, ∀ c ≠ 0,
      ((∀ fit, ols sqrt incompleteBeta rows y = .ok fit →
        ∃ fit', ols sqrt incompleteBeta (rescale k c rows) y = .ok fit' ∧
          fit'.coefficients = fit.coefficients.modify (k + 1) (· / c)) ↔
      (MinorsReach rows → MinorsReach (rescale k c rows))) := by
  constructor
  · rw [ols_singular_iff sqrt incompleteBeta hlength hrow hmore]
    have hnot : MinorsReach rows → ¬Dependent rows := fun h => h.not_dependent hlength hrow
    tauto
  · intro k _ c hc
    have hlength' : (rescale k c rows).length = y.length := by
      rw [length_rescale, hlength]
    have hrow' : ∀ row ∈ rescale k c rows, row.length = predictors (rescale k c rows) := by
      intro row hmem
      have hcount := ((wellShaped hlength hrow).rescale k c).length_row row hmem
      rw [predictors_rescale]
      exact Nat.succ_injective hcount
    have hmore' : parameters (rescale k c rows) < (rescale k c rows).length := by
      rw [parameters_rescale, length_rescale]
      exact hmore
    rw [← ols_fits_iff sqrt incompleteBeta hlength hrow hmore,
      ← ols_fits_iff sqrt incompleteBeta hlength' hrow' hmore']
    constructor
    · intro h hex
      obtain ⟨fit, hfit⟩ := hex
      obtain ⟨fit', hfit', -⟩ := h fit hfit
      exact ⟨fit', hfit'⟩
    · intro h fit hfit
      obtain ⟨fit', hfit'⟩ := h ⟨fit, hfit⟩
      exact ⟨fit', hfit', coefficients_rescale hc hfit hfit'⟩

end Results

/-- Three observations and a predictor that counts units of a ten-millionth. -/
def smallUnits : List (List ℚ) := [[0], [1 / 10 ^ 7], [2 / 10 ^ 7]]

/-- The columns are independent and the verdict is that they are not; a fit is lost
by a change of unit. -/
theorem small_units_refused :
    ¬(ols id (fun _ _ _ => 1) smallUnits [1, 3, 5] = .error .singular ↔ Dependent smallUnits) ∧
      (∃ fit, ols (K := ℚ) id (fun _ _ _ => 1) [[0], [1], [2]] [1, 3, 5] = .ok fit) ∧
      ols id (fun _ _ _ => 1) (rescale 0 (1 / 10 ^ 7 : ℚ) [[0], [1], [2]]) [1, 3, 5] =
        .error .singular := by
  have hunit : rescale 0 (1 / 10 ^ 7 : ℚ) [[0], [1], [2]] = smallUnits := by decide +kernel
  have hlength : ([[0], [1], [2]] : List (List ℚ)).length = ([1, 3, 5] : List ℚ).length := rfl
  have hrow : ∀ row ∈ ([[0], [1], [2]] : List (List ℚ)),
      row.length = predictors [[0], [1], [2]] := by decide +kernel
  have hreach : MinorsReach (K := ℚ) [[0], [1], [2]] := by
    rw [minorsReach_iff hlength hrow]
    decide +kernel
  have hindependent : ¬Dependent smallUnits := by
    rw [← hunit, dependent_rescale hlength hrow 0 (by decide +kernel)]
    exact hreach.not_dependent hlength hrow
  have hlength' : smallUnits.length = ([1, 3, 5] : List ℚ).length := rfl
  have hrow' : ∀ row ∈ smallUnits, row.length = predictors smallUnits := by decide +kernel
  have hmissed : ¬MinorsReach smallUnits := by
    rw [minorsReach_iff hlength' hrow']
    decide +kernel
  have hsingular :=
    (ols_singular_iff id (fun _ _ _ => 1) hlength' hrow' (by decide)).mpr hmissed
  refine ⟨fun h => hindependent (h.mp hsingular), ?_, ?_⟩
  · exact (ols_fits_iff id (fun _ _ _ => 1) hlength hrow (by decide)).mpr hreach
  · rw [hunit]
    exact hsingular

/-- A predictor counted in units and in halves. -/
theorem singular_iff_dependent_halves :
    (ols (K := ℚ) id (fun _ _ _ => 1) [[0], [1], [2]] [1, 3, 5] = .error .singular ↔
      Dependent (K := ℚ) [[0], [1], [2]]) ∧
    ∀ fit, ols (K := ℚ) id (fun _ _ _ => 1) [[0], [1], [2]] [1, 3, 5] = .ok fit →
      ∃ fit', ols (K := ℚ) id (fun _ _ _ => 1) (rescale 0 2 [[0], [1], [2]]) [1, 3, 5] = .ok fit' ∧
        fit'.coefficients = fit.coefficients.modify 1 (· / 2) := by
  have hlength : ([[0], [1], [2]] : List (List ℚ)).length = ([1, 3, 5] : List ℚ).length := rfl
  have hrow : ∀ row ∈ ([[0], [1], [2]] : List (List ℚ)),
      row.length = predictors [[0], [1], [2]] := by decide +kernel
  have hlength' : (rescale 0 2 [[0], [1], [2]] : List (List ℚ)).length =
      ([1, 3, 5] : List ℚ).length := rfl
  have hrow' : ∀ row ∈ (rescale 0 2 [[0], [1], [2]] : List (List ℚ)),
      row.length = predictors (rescale 0 2 ([[0], [1], [2]] : List (List ℚ))) := by decide +kernel
  have hreach : MinorsReach (K := ℚ) [[0], [1], [2]] := by
    rw [minorsReach_iff hlength hrow]
    decide +kernel
  have hreach' : MinorsReach (K := ℚ) (rescale 0 2 [[0], [1], [2]]) := by
    rw [minorsReach_iff hlength' hrow']
    decide +kernel
  obtain ⟨hverdict, hunits⟩ :=
    singular_iff_dependent_iff id (fun _ _ _ => 1) hlength hrow (by decide)
  exact ⟨hverdict.mpr (Or.inr hreach),
    (hunits 0 (by decide) 2 (by decide +kernel)).mpr fun _ => hreach'⟩

end Samples
end Analysis
end IndieWorker
