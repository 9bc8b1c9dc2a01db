import IndieWorker.Analysis.Samples
import IndieWorker.Lib.LeastSquares
import IndieWorker.Lib.Minors

/-!
# Ordinary least squares

`ols` and `invert` of `src/analysis/regression.rs` over any ordered field.
-/

namespace IndieWorker
namespace Analysis
namespace Samples

open Matrix

variable {K : Type} [Field K]

/-- The number of predictors, which the first row decides. -/
def predictors (rows : List (List K)) : Nat := (rows.head?.map List.length).getD 0

def parameters (rows : List (List K)) : Nat := predictors rows + 1

/-- The design with a leading 1 for the intercept. -/
def design (rows : List (List K)) : List (List K) := rows.map (1 :: ·)

/-- The two sums of the normal equations. -/
def xtx (n : Nat) (rows : List (List K)) (y : List K) : Matrix (Fin n) (Fin n) K := fun a b =>
  (((design rows).zip y).map fun z => z.1.getD a 0 * z.1.getD b 0).sum

def xty (n : Nat) (rows : List (List K)) (y : List K) : Fin n → K := fun a =>
  (((design rows).zip y).map fun z => z.1.getD a 0 * z.2).sum

def fitted (rows : List (List K)) (coefficients : List K) : List K :=
  (design rows).map fun row => ((row.zip coefficients).map fun z => z.1 * z.2).sum

def residuals (rows : List (List K)) (y coefficients : List K) : List K :=
  (y.zip (fitted rows coefficients)).map fun z => z.1 - z.2

def residualSumSquares (rows : List (List K)) (y coefficients : List K) : K :=
  ((residuals rows y coefficients).map fun r => r * r).sum

/-- The coefficients, from the inverse of the Gram matrix. -/
def solve {n : Nat} (rows : List (List K)) (y : List K) (inverse : Matrix (Fin n) (Fin n) K) :
    List K :=
  List.ofFn fun a => ∑ b, inverse a b * xty n rows y b

/-! ## The design as a matrix -/

section Shape

/-- The entries of a list of numbers. -/
def entries (n : Nat) (values : List K) : Fin n → K := fun a => values.getD a 0

/-- One row for each observation, one column for each parameter. -/
def designMatrix (m n : Nat) (rows : List (List K)) : Matrix (Fin m) (Fin n) K := fun i =>
  entries n ((design rows).getD i [])

/-- Every observation has a response and every row has all predictors. -/
structure WellShaped (m n : Nat) (rows : List (List K)) (y : List K) : Prop where
  length_rows : rows.length = m
  length_response : y.length = m
  length_row : ∀ row ∈ rows, row.length + 1 = n

variable {m n : Nat} {rows : List (List K)} {y : List K}

theorem wellShaped {α : Type} {rows : List (List α)} {y : List α} (hlength : rows.length = y.length)
    (hrow : ∀ row ∈ rows, row.length = predictors rows) :
    WellShaped rows.length (parameters rows) rows y := by
  refine ⟨rfl, hlength.symm, fun row hmem => ?_⟩
  rw [hrow row hmem]
  rfl

theorem length_design (rows : List (List K)) : (design rows).length = rows.length :=
  List.length_map _

theorem WellShaped.length_design (h : WellShaped m n rows y) : (design rows).length = m := by
  rw [Samples.length_design, h.length_rows]

theorem WellShaped.length_getD_design (h : WellShaped m n rows y) (i : Fin m) :
    ((design rows).getD i []).length = n := by
  have hi : i.val < (design rows).length := by
    rw [h.length_design]
    exact i.isLt
  have hi' : i.val < rows.length := by
    rw [h.length_rows]
    exact i.isLt
  rw [List.getD_eq_getElem _ _ hi]
  simp only [design, List.getElem_map, List.length_cons]
  exact h.length_row _ (List.getElem_mem hi')

theorem WellShaped.xtx (h : WellShaped m n rows y) :
    Samples.xtx n rows y = (designMatrix m n rows)ᵀ * designMatrix m n rows := by
  ext a b
  rw [Samples.xtx, LeastSquares.sum_map_zip_eq_sum h.length_design h.length_response [] 0,
    Matrix.mul_apply]
  rfl

theorem WellShaped.xty (h : WellShaped m n rows y) :
    Samples.xty n rows y = (designMatrix m n rows)ᵀ *ᵥ entries m y := by
  funext a
  rw [Samples.xty, LeastSquares.sum_map_zip_eq_sum h.length_design h.length_response [] 0]
  rfl

theorem WellShaped.fitted (h : WellShaped m n rows y) {coefficients : List K}
    (hlength : coefficients.length = n) (i : Fin m) :
    (Samples.fitted rows coefficients).getD i 0 =
      (designMatrix m n rows *ᵥ entries n coefficients) i := by
  have hi : i.val < (design rows).length := by
    rw [h.length_design]
    exact i.isLt
  have hrow : (design rows)[i.val].length = n := by
    rw [← List.getD_eq_getElem _ [] hi]
    exact h.length_getD_design i
  rw [Samples.fitted, List.getD_eq_getElem _ _ (by rwa [List.length_map]), List.getElem_map,
    LeastSquares.sum_map_zip_eq_sum hrow hlength 0 0]
  rw [← List.getD_eq_getElem _ [] hi]
  rfl

theorem WellShaped.length_residuals (h : WellShaped m n rows y) (coefficients : List K) :
    (residuals rows y coefficients).length = m := by
  rw [residuals, List.length_map, List.length_zip, Samples.fitted, List.length_map,
    h.length_response, h.length_design, Nat.min_self]

theorem WellShaped.residuals (h : WellShaped m n rows y) {coefficients : List K}
    (hlength : coefficients.length = n) (i : Fin m) :
    (Samples.residuals rows y coefficients).getD i 0 =
      LeastSquares.residual (designMatrix m n rows) (entries m y) (entries n coefficients) i := by
  have hi : i.val < (Samples.residuals rows y coefficients).length := by
    rw [h.length_residuals]
    exact i.isLt
  rw [List.getD_eq_getElem _ _ hi]
  simp only [Samples.residuals, List.getElem_map, List.getElem_zip]
  have hy : i.val < y.length := by
    rw [h.length_response]
    exact i.isLt
  have hfitted : i.val < (Samples.fitted rows coefficients).length := by
    rw [Samples.fitted, List.length_map, h.length_design]
    exact i.isLt
  rw [LeastSquares.residual, Pi.sub_apply, ← h.fitted hlength i, entries,
    List.getD_eq_getElem _ _ hy, List.getD_eq_getElem _ _ hfitted]

theorem WellShaped.residualSumSquares (h : WellShaped m n rows y) {coefficients : List K}
    (hlength : coefficients.length = n) :
    Samples.residualSumSquares rows y coefficients =
      LeastSquares.rss (designMatrix m n rows) (entries m y) (entries n coefficients) := by
  rw [Samples.residualSumSquares, LeastSquares.sum_map_eq_sum (h.length_residuals _) 0]
  refine Finset.sum_congr rfl fun i _ => ?_
  rw [h.residuals hlength]

/-- The first column is the intercept. -/
theorem WellShaped.designMatrix_zero (h : WellShaped m n rows y) (i : Fin m) (hn : 0 < n) :
    designMatrix m n rows i ⟨0, hn⟩ = 1 := by
  have hi : i.val < (design rows).length := by
    rw [h.length_design]
    exact i.isLt
  rw [designMatrix, List.getD_eq_getElem _ _ hi]
  simp [design, entries]

/-- The others are the predictors. -/
theorem WellShaped.designMatrix_succ (h : WellShaped m n rows y) (i : Fin m) {k : Nat}
    (hk : k + 1 < n) : designMatrix m n rows i ⟨k + 1, hk⟩ = (rows.getD i []).getD k 0 := by
  have hi : i.val < (design rows).length := by
    rw [h.length_design]
    exact i.isLt
  have hi' : i.val < rows.length := by
    rw [h.length_rows]
    exact i.isLt
  rw [designMatrix, List.getD_eq_getElem _ _ hi, List.getD_eq_getElem _ _ hi']
  simp [design, entries]

theorem length_solve (rows : List (List K)) (y : List K) (inverse : Matrix (Fin n) (Fin n) K) :
    (solve rows y inverse).length = n := List.length_ofFn

theorem entries_solve (rows : List (List K)) (y : List K) (inverse : Matrix (Fin n) (Fin n) K) :
    entries n (solve rows y inverse) = inverse *ᵥ Samples.xty n rows y := by
  funext a
  have ha : a.val < (solve rows y inverse).length := by
    rw [length_solve]
    exact a.isLt
  rw [entries, List.getD_eq_getElem _ _ ha]
  simp [solve, Matrix.mulVec, dotProduct]

theorem entries_injective {a b : List K} (ha : a.length = n) (hb : b.length = n)
    (h : entries n a = entries n b) : a = b := by
  apply List.ext_getElem
  · rw [ha, hb]
  · intro i hi hi'
    have hat := congrFun h ⟨i, ha ▸ hi⟩
    rwa [entries, entries, List.getD_eq_getElem _ _ hi, List.getD_eq_getElem _ _ hi'] at hat

/-- The residuals of a solution sum to zero. -/
theorem WellShaped.sum_residuals (h : WellShaped m n rows y) (hn : 0 < n) {coefficients : List K}
    (hlength : coefficients.length = n)
    (hnormal : LeastSquares.NormalEquations (designMatrix m n rows) (entries m y)
      (entries n coefficients)) : (Samples.residuals rows y coefficients).sum = 0 := by
  have hsum := LeastSquares.sum_map_eq_sum (h.length_residuals coefficients) 0 id
  rw [List.map_id] at hsum
  rw [hsum]
  refine (Finset.sum_congr rfl fun i _ => ?_).trans (hnormal.column ⟨0, hn⟩)
  rw [h.designMatrix_zero i hn, one_mul]
  exact h.residuals hlength i

/-- They are orthogonal to every predictor. -/
theorem WellShaped.sum_mul_residuals (h : WellShaped m n rows y) {k : Nat} (hk : k + 1 < n)
    {coefficients : List K} (hlength : coefficients.length = n)
    (hnormal : LeastSquares.NormalEquations (designMatrix m n rows) (entries m y)
      (entries n coefficients)) :
    ((rows.zip (Samples.residuals rows y coefficients)).map fun z =>
      z.1.getD k 0 * z.2).sum = 0 := by
  rw [LeastSquares.sum_map_zip_eq_sum h.length_rows (h.length_residuals coefficients) [] 0]
  refine (Finset.sum_congr rfl fun i _ => ?_).trans (hnormal.column ⟨k + 1, hk⟩)
  rw [h.designMatrix_succ i hk, h.residuals hlength]

/-- The fit by the mean alone. -/
theorem WellShaped.squaredDeviations (h : WellShaped m n rows y) (hn : 0 < n) :
    Samples.squaredDeviations y =
      LeastSquares.rss (designMatrix m n rows) (entries m y) (Pi.single ⟨0, hn⟩ (mean y)) := by
  rw [Samples.squaredDeviations, LeastSquares.sum_map_eq_sum h.length_response 0]
  refine Finset.sum_congr rfl fun i _ => ?_
  have hfit : (designMatrix m n rows *ᵥ Pi.single ⟨0, hn⟩ (mean y)) i = mean y := by
    rw [Matrix.mulVec_single]
    simp [h.designMatrix_zero i hn]
  rw [LeastSquares.residual, Pi.sub_apply, hfit]
  rfl

end Shape

/-! ## The fit -/

variable [LinearOrder K]

/-- Gauss-Jordan inversion with partial pivoting. -/
def invert {n : Nat} (matrix : Matrix (Fin n) (Fin n) K) : Option (Matrix (Fin n) (Fin n) K) :=
  GaussJordan.invert (1 / 10 ^ 12) matrix

/-- The inner products of the intercept and the predictors. -/
def gram (rows : List (List K)) : Matrix (Fin (parameters rows)) (Fin (parameters rows)) K :=
  (designMatrix rows.length (parameters rows) rows)ᵀ *
    designMatrix rows.length (parameters rows) rows

/-- With the rows of the Gram matrix in the order that makes each leading minor
largest, no leading minor is less than a trillionth of the one before. -/
def MinorsReach (rows : List (List K)) : Prop :=
  ∀ a : Fin (parameters rows),
    1 / 10 ^ 12 *
        |GaussJordan.minor (gram rows) (GaussJordan.greedyOrder (gram rows) a) a| ≤
      |GaussJordan.minor (gram rows) (GaussJordan.greedyOrder (gram rows) (a.val + 1)) (a.val + 1)|

variable [IsStrictOrderedRing K]

/-- A fitted linear model.  The first coefficient is the intercept. -/
structure OlsFit (K : Type) [Field K] [LinearOrder K] [IsStrictOrderedRing K] where
  coefficients : List K
  standardErrors : List K
  tStatistics : List K
  pValues : List (PValue K)
  rSquared : K
  adjustedRSquared : K
  residualStandardError : K
  observations : Nat
  degreesOfFreedom : K

section Program

variable (sqrt : K → K) (incompleteBeta : K → K → K → K) (rows : List (List K)) (y : List K)

/-- The fit, from the inverse of the Gram matrix. -/
def olsFit {n : Nat} (inverse : Matrix (Fin n) (Fin n) K) : OlsFit K :=
  let coefficients := solve rows y inverse
  let rss := residualSumSquares rows y coefficients
  let tss := squaredDeviations y
  let degreesOfFreedom : K := ((rows.length - n : Nat) : K)
  let variance := rss / degreesOfFreedom
  let standardErrors := List.ofFn fun a => sqrt (max (variance * inverse a a) 0)
  let tStatistics := (coefficients.zip standardErrors).map fun z =>
    if z.2 > 0 then z.1 / z.2 else 0
  let rSquared := if tss > 0 then 1 - rss / tss else 0
  { coefficients := coefficients
    standardErrors := standardErrors
    tStatistics := tStatistics
    pValues := tStatistics.map fun t => twoSidedTPValue incompleteBeta t degreesOfFreedom
    rSquared := rSquared
    adjustedRSquared :=
      if tss > 0 then
        1 - (1 - rSquared) * (((rows.length - 1 : Nat) : K) / degreesOfFreedom)
      else 0
    residualStandardError := sqrt variance
    observations := rows.length
    degreesOfFreedom := degreesOfFreedom }

/-- Fit a response by an intercept and predictors. -/
def ols : Except StatsError (OlsFit K) :=
  if rows.length ≠ y.length then .error (.lengthMismatch rows.length y.length)
  else
    match rows.find? fun row => row.length ≠ predictors rows with
    | some row => .error (.lengthMismatch (predictors rows) row.length)
    | none =>
      if rows.length ≤ parameters rows then
        .error (.tooFewObservations rows.length (parameters rows + 1))
      else
        match invert (xtx (parameters rows) rows y) with
        | none => .error .singular
        | some inverse => .ok (olsFit sqrt incompleteBeta rows y inverse)

end Program

section Results

variable {sqrt : K → K} {incompleteBeta : K → K → K → K} {rows : List (List K)} {y : List K}

/-- What is left to decide when the shapes are right. -/
theorem ols_of_shape (hlength : rows.length = y.length)
    (hrow : ∀ row ∈ rows, row.length = predictors rows) (hmore : parameters rows < rows.length) :
    ols sqrt incompleteBeta rows y =
      match invert (xtx (parameters rows) rows y) with
      | none => .error .singular
      | some inverse => .ok (olsFit sqrt incompleteBeta rows y inverse) := by
  have hfind : (rows.find? fun row => row.length ≠ predictors rows) = none := by
    rw [List.find?_eq_none]
    intro row hmem
    simp [hrow row hmem]
  rw [ols, if_neg (not_not.mpr hlength), hfind]
  exact if_neg (not_le.mpr hmore)

/-- The fits are those of the right shapes with an inverse. -/
theorem ols_eq_ok {fit : OlsFit K} (h : ols sqrt incompleteBeta rows y = .ok fit) :
    rows.length = y.length ∧ (∀ row ∈ rows, row.length = predictors rows) ∧
      parameters rows < rows.length ∧
      ∃ inverse, invert (xtx (parameters rows) rows y) = some inverse ∧
        olsFit sqrt incompleteBeta rows y inverse = fit := by
  rw [ols] at h
  split at h
  · cases h
  · next hlength =>
    split at h
    · cases h
    · next hfind =>
      split at h
      · cases h
      · next hmore =>
        split at h
        · cases h
        · next inverse hinverse =>
          refine ⟨not_not.mp hlength, fun row hmem => ?_, not_le.mp hmore, inverse, hinverse,
            Except.ok.inj h⟩
          have hnot := List.find?_eq_none.mp hfind row hmem
          simpa using hnot

/-- The coefficients solve the normal equations of a design with independent
columns. -/
theorem ols_solves {fit : OlsFit K} (h : ols sqrt incompleteBeta rows y = .ok fit) :
    fit.coefficients.length = parameters rows ∧
      LeastSquares.Independent (designMatrix rows.length (parameters rows) rows) ∧
      LeastSquares.NormalEquations (designMatrix rows.length (parameters rows) rows)
        (entries rows.length y) (entries (parameters rows) fit.coefficients) := by
  obtain ⟨hlength, hrow, -, inverse, hinverse, rfl⟩ := ols_eq_ok h
  have hshape := wellShaped hlength hrow
  have htolerance : (0 : K) < 1 / 10 ^ 12 := by positivity
  rw [invert, hshape.xtx] at hinverse
  refine ⟨length_solve rows y inverse, LeastSquares.independent_of_invert htolerance hinverse, ?_⟩
  show LeastSquares.NormalEquations _ _ (entries _ (solve rows y inverse))
  rw [entries_solve, hshape.xty]
  exact LeastSquares.normalEquations_of_invert htolerance hinverse

/-- The fit explains between none and all of the variation. -/
theorem ols_rSquared_mem {fit : OlsFit K} (h : ols sqrt incompleteBeta rows y = .ok fit) :
    0 ≤ fit.rSquared ∧ fit.rSquared ≤ 1 := by
  obtain ⟨hcoefficients, -, hnormal⟩ := ols_solves h
  obtain ⟨hlength, hrow, -, inverse, -, hfit⟩ := ols_eq_ok h
  have hshape := wellShaped hlength hrow
  have hle : residualSumSquares rows y fit.coefficients ≤ squaredDeviations y := by
    rw [hshape.residualSumSquares hcoefficients, hshape.squaredDeviations (Nat.succ_pos _)]
    exact LeastSquares.rss_le hnormal _
  have hnonneg : 0 ≤ residualSumSquares rows y fit.coefficients := by
    rw [hshape.residualSumSquares hcoefficients]
    exact LeastSquares.rss_nonneg
  have hrSquared : fit.rSquared = if squaredDeviations y > 0 then
      1 - residualSumSquares rows y fit.coefficients / squaredDeviations y else 0 := by
    rw [← hfit]
    rfl
  rw [hrSquared]
  split
  · next hpos =>
    have hratio := (div_le_one hpos).mpr hle
    have hratio' := div_nonneg hnonneg hpos.le
    exact ⟨sub_nonneg.mpr hratio, sub_le_self 1 hratio'⟩
  · exact ⟨le_rfl, zero_le_one⟩

/-- Every fit is the least-squares fit. -/
theorem ols_least_squares {fit : OlsFit K} (h : ols sqrt incompleteBeta rows y = .ok fit) :
    fit.coefficients.length = parameters rows ∧
      xtx (parameters rows) rows y *ᵥ entries (parameters rows) fit.coefficients =
        xty (parameters rows) rows y ∧
      (residuals rows y fit.coefficients).sum = 0 ∧
      (∀ k < predictors rows,
        ((rows.zip (residuals rows y fit.coefficients)).map fun z => z.1.getD k 0 * z.2).sum = 0) ∧
      (∀ other : List K, other.length = parameters rows → other ≠ fit.coefficients →
        residualSumSquares rows y fit.coefficients < residualSumSquares rows y other) ∧
      0 ≤ fit.rSquared ∧ fit.rSquared ≤ 1 := by
  obtain ⟨hcoefficients, hindependent, hnormal⟩ := ols_solves h
  obtain ⟨hlength, hrow, -, -⟩ := ols_eq_ok h
  have hshape := wellShaped hlength hrow
  refine ⟨hcoefficients, ?_, hshape.sum_residuals (Nat.succ_pos _) hcoefficients hnormal, ?_, ?_,
    ols_rSquared_mem h⟩
  · rw [hshape.xtx, hshape.xty]
    exact LeastSquares.normalEquations_iff.mp hnormal
  · intro k hk
    exact hshape.sum_mul_residuals (Nat.succ_lt_succ hk) hcoefficients hnormal
  · intro other hother hne
    rw [hshape.residualSumSquares hcoefficients, hshape.residualSumSquares hother]
    refine LeastSquares.rss_lt hindependent hnormal fun heq => ?_
    exact hne (entries_injective hother hcoefficients heq)

/-- Three points on a line. -/
theorem ols_least_squares_line : ∃ fit,
    ols (K := ℚ) id (fun _ _ _ => 1) [[0], [1], [2]] [1, 3, 5] = .ok fit ∧
      fit.coefficients = [1, 2] ∧ residualSumSquares [[0], [1], [2]] [1, 3, 5] [1, 2] <
        residualSumSquares (K := ℚ) [[0], [1], [2]] [1, 3, 5] [0, 0] := by
  have hcoefficients : (ols (K := ℚ) id (fun _ _ _ => 1) [[0], [1], [2]] [1, 3, 5]).map
      OlsFit.coefficients = .ok [1, 2] := by decide +kernel
  cases hols : ols (K := ℚ) id (fun _ _ _ => 1) [[0], [1], [2]] [1, 3, 5] with
  | error e =>
    rw [hols] at hcoefficients
    cases hcoefficients
  | ok fit =>
    rw [hols] at hcoefficients
    have heq : fit.coefficients = [1, 2] := Except.ok.inj hcoefficients
    obtain ⟨-, -, -, -, hleast, -⟩ := ols_least_squares hols
    have hlt := hleast [0, 0] rfl (by rw [heq]; decide +kernel)
    rw [heq] at hlt
    exact ⟨fit, rfl, heq, hlt⟩

end Results

end Samples
end Analysis
end IndieWorker
