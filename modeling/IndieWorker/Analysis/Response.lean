import IndieWorker.Analysis.Ols
import IndieWorker.Analysis.Units

/-!
# What a fit depends on

`ols` of `src/analysis/regression.rs` does not see the order of the observations, and a
change of the units of the response is a change of the units of the fit.
-/

namespace IndieWorker
namespace Analysis
namespace Samples

open Matrix

/-! ## The order of the observations -/

section Order

variable {K : Type} [Field K] {data data' : List (List K × K)}

/-- The sums over the observations are sums over the pairs. -/
theorem xtx_pairs (n : Nat) (data : List (List K × K)) (a b : Fin n) :
    xtx n (data.map Prod.fst) (data.map Prod.snd) a b =
      (data.map fun z => (1 :: z.1).getD a 0 * (1 :: z.1).getD b 0).sum := by
  rw [xtx, design, List.map_map, List.zip_map', List.map_map]
  rfl

theorem xty_pairs (n : Nat) (data : List (List K × K)) (a : Fin n) :
    xty n (data.map Prod.fst) (data.map Prod.snd) a =
      (data.map fun z => (1 :: z.1).getD a 0 * z.2).sum := by
  rw [xty, design, List.map_map, List.zip_map', List.map_map]
  rfl

theorem residualSumSquares_pairs (data : List (List K × K)) (coefficients : List K) :
    residualSumSquares (data.map Prod.fst) (data.map Prod.snd) coefficients =
      (data.map fun z => (z.2 - (((1 :: z.1).zip coefficients).map fun w => w.1 * w.2).sum) *
        (z.2 - (((1 :: z.1).zip coefficients).map fun w => w.1 * w.2).sum)).sum := by
  rw [residualSumSquares, residuals, fitted, design, List.map_map, List.map_map, List.map_map,
    List.zip_map', List.map_map]
  rfl

theorem mean_perm {values values' : List K} (h : values.Perm values') :
    mean values = mean values' := by
  rw [mean, mean, h.sum_eq, h.length_eq]

theorem squaredDeviations_perm {values values' : List K} (h : values.Perm values') :
    squaredDeviations values = squaredDeviations values' := by
  rw [squaredDeviations, squaredDeviations, mean_perm h]
  exact (h.map _).sum_eq

variable [LinearOrder K] [IsStrictOrderedRing K]
variable (sqrt : K → K) (incompleteBeta : K → K → K → K)

theorem olsFit_perm (h : data.Perm data') {n : Nat} (inverse : Matrix (Fin n) (Fin n) K) :
    olsFit sqrt incompleteBeta (data.map Prod.fst) (data.map Prod.snd) inverse =
      olsFit sqrt incompleteBeta (data'.map Prod.fst) (data'.map Prod.snd) inverse := by
  have hxty : xty n (data.map Prod.fst) (data.map Prod.snd) =
      xty n (data'.map Prod.fst) (data'.map Prod.snd) := by
    funext a
    rw [xty_pairs, xty_pairs]
    exact (h.map _).sum_eq
  have hsolve : solve (data.map Prod.fst) (data.map Prod.snd) inverse =
      solve (data'.map Prod.fst) (data'.map Prod.snd) inverse := by
    rw [solve, solve, hxty]
  have hrss : ∀ coefficients,
      residualSumSquares (data.map Prod.fst) (data.map Prod.snd) coefficients =
        residualSumSquares (data'.map Prod.fst) (data'.map Prod.snd) coefficients := by
    intro coefficients
    rw [residualSumSquares_pairs, residualSumSquares_pairs]
    exact (h.map _).sum_eq
  have hlength : (data.map Prod.fst).length = (data'.map Prod.fst).length := by
    rw [List.length_map, List.length_map, h.length_eq]
  rw [olsFit, olsFit, hsolve, hrss, squaredDeviations_perm (h.map Prod.snd), hlength]

omit [Field K] [LinearOrder K] [IsStrictOrderedRing K] in
theorem predictors_pairs (hrow : ∀ z ∈ data, ∀ w ∈ data, z.1.length = w.1.length) {z : List K × K}
    (hz : z ∈ data) : z.1.length = predictors (data.map Prod.fst) := by
  cases data with
  | nil => cases hz
  | cons first rest => exact hrow z hz first List.mem_cons_self

/-- The fit of observations with all their predictors. -/
theorem ols_pairs (hrow : ∀ z ∈ data, ∀ w ∈ data, z.1.length = w.1.length) :
    ols sqrt incompleteBeta (data.map Prod.fst) (data.map Prod.snd) =
      if data.length ≤ parameters (data.map Prod.fst) then
        .error (.tooFewObservations data.length (parameters (data.map Prod.fst) + 1))
      else
        (invert (xtx (parameters (data.map Prod.fst)) (data.map Prod.fst)
            (data.map Prod.snd))).elim (.error .singular) fun inverse =>
          .ok (olsFit sqrt incompleteBeta (data.map Prod.fst) (data.map Prod.snd) inverse) := by
  have hlength : (data.map Prod.fst).length = (data.map Prod.snd).length := by
    rw [List.length_map, List.length_map]
  have hshape : ∀ row ∈ data.map Prod.fst, row.length = predictors (data.map Prod.fst) := by
    intro row hmem
    obtain ⟨z, hz, rfl⟩ := List.mem_map.mp hmem
    exact predictors_pairs hrow hz
  by_cases hmore : data.length ≤ parameters (data.map Prod.fst)
  · have hfind : ((data.map Prod.fst).find? fun row =>
        row.length ≠ predictors (data.map Prod.fst)) = none := by
      rw [List.find?_eq_none]
      intro row hmem
      simp [hshape row hmem]
    rw [if_pos hmore, ols, if_neg (not_not.mpr hlength), hfind]
    dsimp only
    rw [List.length_map, if_pos hmore]
  · rw [if_neg hmore, ols_of_shape hlength hshape (by rw [List.length_map]; omega)]
    cases invert (xtx (parameters (data.map Prod.fst)) (data.map Prod.fst) (data.map Prod.snd)) with
    | none => rfl
    | some inverse => rfl

/-- The fit is the same in any order. -/
theorem ols_perm (h : data.Perm data')
    (hrow : ∀ z ∈ data, ∀ w ∈ data, z.1.length = w.1.length) :
    ols sqrt incompleteBeta (data.map Prod.fst) (data.map Prod.snd) =
      ols sqrt incompleteBeta (data'.map Prod.fst) (data'.map Prod.snd) := by
  have hrow' : ∀ z ∈ data', ∀ w ∈ data', z.1.length = w.1.length := fun z hz w hw =>
    hrow z (h.mem_iff.mpr hz) w (h.mem_iff.mpr hw)
  have hparameters : parameters (data.map Prod.fst) = parameters (data'.map Prod.fst) := by
    refine congrArg (· + 1) ?_
    cases data with
    | nil => rw [List.nil_perm.mp h]
    | cons first rest => exact predictors_pairs hrow' (h.mem_iff.mp List.mem_cons_self)
  have hxtx : ∀ n, xtx n (data.map Prod.fst) (data.map Prod.snd) =
      xtx n (data'.map Prod.fst) (data'.map Prod.snd) := by
    intro n
    ext a b
    rw [xtx_pairs, xtx_pairs]
    exact (h.map _).sum_eq
  rw [ols_pairs sqrt incompleteBeta hrow, ols_pairs sqrt incompleteBeta hrow', hparameters, hxtx,
    h.length_eq]
  simp only [olsFit_perm sqrt incompleteBeta h]

end Order

/-! ## The units of the response -/

section Response

/-- The coefficients in units of which `a` are one of the old, counted from `b`. -/
def convertCoefficients (a b : ℝ) : List ℝ → List ℝ
  | [] => []
  | intercept :: slopes => (a * intercept + b) :: slopes.map (a * ·)

/-- A fit of the same response in other units. -/
structure Converted (a b : ℝ) (fit fit' : OlsFit ℝ) : Prop where
  coefficients : fit'.coefficients = convertCoefficients a b fit.coefficients
  standardErrors : fit'.standardErrors = fit.standardErrors.map (|a| * ·)
  tStatistics : fit'.tStatistics.tail = fit.tStatistics.tail.map (a / |a| * ·)
  pValues : fit'.pValues.tail = fit.pValues.tail
  rSquared : fit'.rSquared = fit.rSquared
  adjustedRSquared : fit'.adjustedRSquared = fit.adjustedRSquared
  residualStandardError : fit'.residualStandardError = |a| * fit.residualStandardError
  observations : fit'.observations = fit.observations
  degreesOfFreedom : fit'.degreesOfFreedom = fit.degreesOfFreedom

variable {a : ℝ} (b : ℝ) {m n : Nat} {rows : List (List ℝ)} {y : List ℝ}

theorem WellShaped.map_response (h : WellShaped m n rows y) (f : ℝ → ℝ) :
    WellShaped m n rows (y.map f) :=
  ⟨h.length_rows, by rw [List.length_map, h.length_response], h.length_row⟩

theorem WellShaped.entries_response (h : WellShaped m n rows y) (a : ℝ) :
    entries m (y.map fun v => a * v + b) = a • entries m y + b • fun _ => (1 : ℝ) := by
  funext i
  have hi : i.val < y.length := by
    rw [h.length_response]
    exact i.isLt
  rw [entries, List.getD_eq_getElem _ _ (by rwa [List.length_map]), List.getElem_map]
  simp [entries, List.getElem?_eq_getElem hi]

/-- The intercept alone is fitted by ones. -/
theorem WellShaped.mulVec_intercept (h : WellShaped m n rows y) (hn : 0 < n) :
    designMatrix m n rows *ᵥ Pi.single ⟨0, hn⟩ 1 = fun _ => 1 := by
  funext i
  rw [Matrix.mulVec_single]
  simp [h.designMatrix_zero i hn]

theorem entries_convertCoefficients {coefficients : List ℝ} (hlength : coefficients.length = n)
    (hn : 0 < n) : entries n (convertCoefficients a b coefficients) =
      a • entries n coefficients + b • Pi.single ⟨0, hn⟩ 1 := by
  cases coefficients with
  | nil =>
    rw [List.length_nil] at hlength
    omega
  | cons intercept slopes =>
    funext i
    rw [List.length_cons] at hlength
    obtain ⟨_ | k, hi⟩ := i
    · simp [entries, convertCoefficients]
    · have hk : k < slopes.length := by omega
      simp [entries, convertCoefficients, List.getElem?_eq_getElem hk]

theorem length_convertCoefficients (coefficients : List ℝ) :
    (convertCoefficients a b coefficients).length = coefficients.length := by
  cases coefficients with
  | nil => rfl
  | cons intercept slopes => rw [convertCoefficients, List.length_cons, List.length_map]; rfl

variable (incompleteBeta : ℝ → ℝ → ℝ → ℝ)

/-- Only the intercept moves, so the slopes are as far from zero as before. -/
theorem tail_tStatistics (ha : a ≠ 0) (coefficients standardErrors : List ℝ) :
    (((convertCoefficients a b coefficients).zip (standardErrors.map (|a| * ·))).map fun z =>
        if z.2 > 0 then z.1 / z.2 else 0).tail =
      (((coefficients.zip standardErrors).map fun z =>
        if z.2 > 0 then z.1 / z.2 else 0).tail).map (a / |a| * ·) := by
  cases coefficients with
  | nil => rfl
  | cons intercept slopes =>
    cases standardErrors with
    | nil => rfl
    | cons first rest =>
      rw [convertCoefficients, List.map_cons, List.zip_cons_cons, List.map_cons, List.tail_cons,
        List.zip_cons_cons, List.map_cons, List.tail_cons, List.zip_map, List.map_map,
        List.map_map]
      refine List.map_congr_left fun z _ => ?_
      simp only [Function.comp_apply, Prod.map, gt_iff_lt,
        mul_pos_iff_of_pos_left (abs_pos.mpr ha), mul_ite, mul_zero, mul_div_mul_comm]

/-- The solution moves along the intercept. -/
theorem WellShaped.solve_response (h : WellShaped m n rows y) (hn : 0 < n)
    {inverse : Matrix (Fin n) (Fin n) ℝ} (hinverse : invert (Samples.xtx n rows y) = some inverse) :
    solve rows (y.map fun v => a * v + b) inverse =
      convertCoefficients a b (solve rows y inverse) := by
  have htolerance : (0 : ℝ) < 1 / 10 ^ 12 := by positivity
  rw [invert, h.xtx] at hinverse
  have hsolves : ∀ {y : List ℝ}, WellShaped m n rows y →
      LeastSquares.NormalEquations (designMatrix m n rows) (entries m y)
        (entries n (solve rows y inverse)) := by
    intro y h
    rw [entries_solve, h.xty]
    exact LeastSquares.normalEquations_of_invert htolerance hinverse
  have hmoved := (hsolves h).move (h.mulVec_intercept hn) a b
  have hnew := hsolves (h.map_response fun v => a * v + b)
  rw [h.entries_response] at hnew
  refine entries_injective (length_solve _ _ _) ?_ ?_
  · rw [length_convertCoefficients, length_solve]
  · rw [entries_convertCoefficients b (length_solve _ _ _) hn]
    exact LeastSquares.normalEquations_unique
      (LeastSquares.independent_of_invert htolerance hinverse) hmoved hnew

theorem WellShaped.residualSumSquares_response (h : WellShaped m n rows y) (hn : 0 < n)
    {coefficients : List ℝ} (hlength : coefficients.length = n) :
    Samples.residualSumSquares rows (y.map fun v => a * v + b)
        (convertCoefficients a b coefficients) =
      a * a * Samples.residualSumSquares rows y coefficients := by
  rw [(h.map_response _).residualSumSquares (by rwa [length_convertCoefficients]),
    h.residualSumSquares hlength, h.entries_response, entries_convertCoefficients b hlength hn,
    LeastSquares.rss_move (h.mulVec_intercept hn)]

theorem WellShaped.converted (h : WellShaped m n rows y) (hm : 0 < m) (hn : 0 < n) (ha : a ≠ 0)
    {inverse : Matrix (Fin n) (Fin n) ℝ} (hinverse : invert (Samples.xtx n rows y) = some inverse) :
    Converted a b (olsFit Real.sqrt incompleteBeta rows y inverse)
      (olsFit Real.sqrt incompleteBeta rows (y.map fun v => a * v + b) inverse) := by
  have hsq : 0 < a * a := mul_self_pos.mpr ha
  have hne : y ≠ [] := by
    rintro rfl
    exact hm.ne h.length_response
  have hcoefficients := h.solve_response (a := a) b hn hinverse
  have hrss := h.residualSumSquares_response (a := a) b hn (length_solve rows y inverse)
  have htss := squaredDeviations_affine a b hne
  rw [← hcoefficients] at hrss
  have herrors : (olsFit Real.sqrt incompleteBeta rows (y.map fun v => a * v + b)
        inverse).standardErrors =
      (olsFit Real.sqrt incompleteBeta rows y inverse).standardErrors.map (|a| * ·) := by
    rw [olsFit, olsFit]
    dsimp only
    rw [List.map_ofFn, hrss]
    refine congrArg List.ofFn (funext fun i => ?_)
    rw [Function.comp_apply, ← Real.sqrt_mul_self_eq_abs, ← Real.sqrt_mul hsq.le,
      mul_max_of_nonneg _ _ hsq.le, mul_zero, mul_div_assoc, mul_assoc]
  have hstatistics : (olsFit Real.sqrt incompleteBeta rows (y.map fun v => a * v + b)
        inverse).tStatistics.tail =
      (olsFit Real.sqrt incompleteBeta rows y inverse).tStatistics.tail.map (a / |a| * ·) := by
    have htail := tail_tStatistics b ha (solve rows y inverse)
      (olsFit Real.sqrt incompleteBeta rows y inverse).standardErrors
    rw [← herrors, ← hcoefficients] at htail
    exact htail
  have hrSquared : (olsFit Real.sqrt incompleteBeta rows (y.map fun v => a * v + b)
        inverse).rSquared = (olsFit Real.sqrt incompleteBeta rows y inverse).rSquared := by
    rw [olsFit, olsFit]
    dsimp only
    rw [hrss, htss, mul_div_mul_left _ _ hsq.ne']
    simp only [gt_iff_lt, mul_pos_iff_of_pos_left hsq]
  refine ⟨hcoefficients, herrors, hstatistics, ?_, hrSquared, ?_, ?_, rfl, rfl⟩
  · have hpValues : ∀ y, (olsFit Real.sqrt incompleteBeta rows y inverse).pValues =
        (olsFit Real.sqrt incompleteBeta rows y inverse).tStatistics.map fun t =>
          twoSidedTPValue incompleteBeta t ((rows.length - n : Nat) : ℝ) := fun _ => rfl
    rw [hpValues, hpValues, ← List.map_tail, ← List.map_tail, hstatistics, List.map_map]
    exact List.map_congr_left fun t _ => twoSidedTPValue_sign incompleteBeta ha t _
  · rw [olsFit, olsFit] at hrSquared ⊢
    dsimp only at hrSquared ⊢
    rw [hrSquared, htss]
    simp only [gt_iff_lt, mul_pos_iff_of_pos_left hsq]
  · rw [olsFit, olsFit]
    dsimp only
    rw [hrss, mul_div_assoc, Real.sqrt_mul hsq.le, Real.sqrt_mul_self_eq_abs]

theorem ols_response (ha : a ≠ 0) :
    (∀ error, ols Real.sqrt incompleteBeta rows (y.map fun v => a * v + b) = .error error ↔
        ols Real.sqrt incompleteBeta rows y = .error error) ∧
      ∀ fit, ols Real.sqrt incompleteBeta rows y = .ok fit →
        ∃ fit', ols Real.sqrt incompleteBeta rows (y.map fun v => a * v + b) = .ok fit' ∧
          Converted a b fit fit' := by
  rw [ols, ols, List.length_map]
  by_cases hlength : rows.length = y.length
  · rw [if_neg (not_not.mpr hlength), if_neg (not_not.mpr hlength)]
    cases hfind : rows.find? fun row => row.length ≠ predictors rows with
    | some row => exact ⟨fun error => Iff.rfl, fun fit hfit => by cases hfit⟩
    | none =>
      dsimp only
      by_cases hmore : rows.length ≤ parameters rows
      · rw [if_pos hmore, if_pos hmore]
        exact ⟨fun error => Iff.rfl, fun fit hfit => by cases hfit⟩
      · rw [if_neg hmore, if_neg hmore]
        have hshape := wellShaped hlength fun row hmem => by
          simpa using List.find?_eq_none.mp hfind row hmem
        rw [(hshape.map_response fun v => a * v + b).xtx, ← hshape.xtx]
        cases hinverse : invert (xtx (parameters rows) rows y) with
        | none => exact ⟨fun error => Iff.rfl, fun fit hfit => by cases hfit⟩
        | some inverse =>
          refine ⟨fun error => iff_of_false (fun h => by cases h) (fun h => by cases h),
            fun fit hfit => ?_⟩
          rw [← Except.ok.inj hfit]
          exact ⟨_, rfl, hshape.converted b incompleteBeta (by omega) (Nat.succ_pos _) ha hinverse⟩
  · rw [if_pos hlength, if_pos hlength]
    exact ⟨fun error => Iff.rfl, fun fit hfit => by cases hfit⟩

end Response

/-- A fit depends on its observations and not on their order, and a response in other
units has the same fit in those units, with every slope as significant as before. -/
theorem fit_of_observations (incompleteBeta : ℝ → ℝ → ℝ → ℝ) :
    (∀ data data' : List (List ℝ × ℝ), data.Perm data' →
      (∀ z ∈ data, ∀ w ∈ data, z.1.length = w.1.length) →
        ols Real.sqrt incompleteBeta (data.map Prod.fst) (data.map Prod.snd) =
          ols Real.sqrt incompleteBeta (data'.map Prod.fst) (data'.map Prod.snd)) ∧
      ∀ (rows : List (List ℝ)) (y : List ℝ) (a b : ℝ), a ≠ 0 →
        (∀ error, ols Real.sqrt incompleteBeta rows (y.map fun v => a * v + b) = .error error ↔
            ols Real.sqrt incompleteBeta rows y = .error error) ∧
          ∀ fit, ols Real.sqrt incompleteBeta rows y = .ok fit →
            ∃ fit', ols Real.sqrt incompleteBeta rows (y.map fun v => a * v + b) = .ok fit' ∧
              Converted a b fit fit' :=
  ⟨fun _ _ h hrow => ols_perm _ _ h hrow, fun _ _ _ b ha => ols_response b incompleteBeta ha⟩

/-- A diagonal matrix whose entries are not small has an inverse. -/
theorem invert_diagonal {M : Matrix (Fin 2) (Fin 2) ℝ} (hs : 1 ≤ M 0 0) (ht : 1 ≤ M 1 1)
    (hlower : M 1 0 = 0) : ∃ inverse, invert M = some inverse := by
  have hsmall : (1 : ℝ) / 10 ^ 12 ≤ 1 := by norm_num
  refine Option.ne_none_iff_exists'.mp fun hnone => ?_
  have hfirst := (GaussJordan.pivotRow_spec (L := M) (c := 0)).2 0 le_rfl
  rcases Fin.exists_fin_two.mp (GaussJordan.invert_eq_none_iff.mp hnone) with hc | hc
  · have hle : |M 0 0| ≤ |GaussJordan.pivot M 0| := hfirst
    linarith [le_abs_self (M 0 0)]
  · have hrow : GaussJordan.pivotRow M 0 = 0 := by
      rcases Fin.exists_fin_two.mp ⟨GaussJordan.pivotRow M 0, rfl⟩ with hp | hp
      · exact hp
      · rw [hp, hlower, abs_zero] at hfirst
        linarith [le_abs_self (M 0 0)]
    have hentry : (GaussJordan.state M 1).1 1 1 = M 1 1 := by
      have hstate : GaussJordan.state M 1 = GaussJordan.advance 0 (M, 1) :=
        GaussJordan.state_succ (M := M) (0 : Fin 2)
      rw [hstate]
      show GaussJordan.turn M 0 (GaussJordan.pivotRow M 0) M 1 1 = M 1 1
      rw [hrow, GaussJordan.turn_other (by decide)]
      simp [hlower]
    have hlast := (GaussJordan.pivotRow_spec (L := (GaussJordan.state M 1).1) (c := 1)).2 1 le_rfl
    rw [hentry] at hlast
    have hle : |M 1 1| ≤ |GaussJordan.pivot M 1| := hlast
    linarith [le_abs_self (M 1 1)]

/-- Three observations on a line, in another order and in other units. -/
theorem fit_of_observations_three : ∃ fit fit',
    ols Real.sqrt (fun _ _ x => x) [[-1], [0], [1]] [-2, 0, 2] = .ok fit ∧
      ols Real.sqrt (fun _ _ x => x) [[0], [-1], [1]] [0, -2, 2] = .ok fit ∧
      ols Real.sqrt (fun _ _ x => x) [[-1], [0], [1]] [-5, 1, 7] = .ok fit' ∧
      Converted 3 1 fit fit' := by
  obtain ⟨horder, hunits⟩ := fit_of_observations fun _ _ x => x
  obtain ⟨inverse, hinverse⟩ : ∃ inverse,
      invert (xtx (parameters [[(-1 : ℝ)], [0], [1]]) [[-1], [0], [1]] [-2, 0, 2]) =
        some (inverse : Matrix (Fin 2) (Fin 2) ℝ) := by
    have hentries := xtx_pairs (K := ℝ) 2 [([-1], -2), ([0], 0), ([1], 2)]
    refine invert_diagonal ?_ ?_ ?_
    · exact (by norm_num : (1 : ℝ) ≤ _).trans_eq (hentries 0 0).symm
    · exact (by norm_num : (1 : ℝ) ≤ _).trans_eq (hentries 1 1).symm
    · exact (hentries 1 0).trans (by norm_num)
  obtain ⟨fit, hfit⟩ : ∃ fit, ols Real.sqrt (fun _ _ x => x) [[-1], [0], [1]] [-2, 0, 2] =
      .ok fit := by
    rw [ols_of_shape rfl (by simp [predictors]) (by simp [parameters, predictors]), hinverse]
    exact ⟨_, rfl⟩
  have hswapped := horder [([-1], -2), ([0], 0), ([1], 2)] [([0], 0), ([-1], -2), ([1], 2)]
    (List.Perm.swap _ _ _) (by simp)
  obtain ⟨fit', hfit', hconverted⟩ :=
    (hunits [[-1], [0], [1]] [-2, 0, 2] 3 1 three_ne_zero).2 fit hfit
  norm_num at hfit'
  exact ⟨fit, fit', hfit, hswapped.symm.trans hfit, hfit', hconverted⟩

end Samples
end Analysis
end IndieWorker
