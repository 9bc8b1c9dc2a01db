import IndieWorker.Analysis.Samples
import Mathlib.Tactic.LinearCombination

/-!
# Pearson correlation

`pearson` of `src/analysis/regression.rs` over any ordered field, and over the reals with
the real square root.
-/

namespace IndieWorker
namespace Analysis
namespace Samples

variable {K : Type} [Field K] [LinearOrder K] [IsStrictOrderedRing K]

/-- A correlation and its two-sided p-value, in numbers of some kind. -/
structure Correlation (ν π : Type) where
  r : ν
  pValue : π
  observations : Nat
  deriving DecidableEq

section Program

variable (sqrt : K → K) (incompleteBeta : K → K → K → K)

def pearson (x y : List K) : Except StatsError (Correlation K (PValue K)) :=
  if x.length ≠ y.length then .error (.lengthMismatch x.length y.length)
  else if x.length < 3 then .error (.tooFewObservations x.length 3)
  else
    let deviations := (x.zip y).map fun v => (v.1 - mean x, v.2 - mean y)
    let sxy := (deviations.map fun d => d.1 * d.2).sum
    let sxx := (deviations.map fun d => d.1 * d.1).sum
    let syy := (deviations.map fun d => d.2 * d.2).sum
    if sxx = 0 then .error (.zeroVariance 0)
    else if syy = 0 then .error (.zeroVariance 1)
    else
      let r := max (-1) (min (sxy / (sqrt sxx * sqrt syy)) 1)
      .ok ⟨r, pearsonPValue sqrt incompleteBeta r x.length, x.length⟩

end Program

/-! ## Pairs of deviations -/

section Pairs

variable (pairs : List (K × K))

omit [LinearOrder K] [IsStrictOrderedRing K] in
/-- The squares of what is left of the second component without `c` times the first. -/
theorem sum_residuals (c : K) :
    (pairs.map fun d => (d.2 - c * d.1) * (d.2 - c * d.1)).sum =
      (pairs.map fun d => d.2 * d.2).sum - 2 * c * (pairs.map fun d => d.1 * d.2).sum +
        c * c * (pairs.map fun d => d.1 * d.1).sum := by
  induction pairs with
  | nil => simp
  | cons d pairs ih =>
    rw [List.map_cons, List.sum_cons, ih, List.map_cons, List.sum_cons, List.map_cons,
      List.sum_cons, List.map_cons, List.sum_cons]
    ring

theorem sum_residuals_nonneg (c : K) :
    0 ≤ (pairs.map fun d => (d.2 - c * d.1) * (d.2 - c * d.1)).sum := by
  refine List.sum_nonneg fun s hs => ?_
  obtain ⟨d, -, rfl⟩ := List.mem_map.mp hs
  exact mul_self_nonneg _

variable {pairs}

theorem sum_residuals_eq_zero_iff {c : K} :
    (pairs.map fun d => (d.2 - c * d.1) * (d.2 - c * d.1)).sum = 0 ↔
      ∀ d ∈ pairs, d.2 = c * d.1 := by
  constructor
  · intro h d hd
    have hnonneg : ∀ s ∈ pairs.map fun d => (d.2 - c * d.1) * (d.2 - c * d.1), 0 ≤ s := by
      intro s hs
      obtain ⟨d, -, rfl⟩ := List.mem_map.mp hs
      exact mul_self_nonneg _
    have hle := (List.single_le_sum hnonneg _ (List.mem_map_of_mem hd)).trans_eq h
    exact sub_eq_zero.mp (mul_self_eq_zero.mp (le_antisymm hle (mul_self_nonneg _)))
  · intro h
    refine List.sum_eq_zero fun s hs => ?_
    obtain ⟨d, hd, rfl⟩ := List.mem_map.mp hs
    rw [h d hd, sub_self, mul_zero]

/-- The Cauchy-Schwarz inequality for pairs, and when it is an equation. -/
theorem sum_products (hpos : 0 < (pairs.map fun d => d.1 * d.1).sum) :
    (pairs.map fun d => d.1 * d.2).sum ^ 2 ≤
        (pairs.map fun d => d.1 * d.1).sum * (pairs.map fun d => d.2 * d.2).sum ∧
      ((pairs.map fun d => d.1 * d.2).sum ^ 2 =
          (pairs.map fun d => d.1 * d.1).sum * (pairs.map fun d => d.2 * d.2).sum ↔
        ∀ d ∈ pairs, d.2 = (pairs.map fun d => d.1 * d.2).sum /
          (pairs.map fun d => d.1 * d.1).sum * d.1) := by
  set sxx := (pairs.map fun d => d.1 * d.1).sum
  set sxy := (pairs.map fun d => d.1 * d.2).sum
  set syy := (pairs.map fun d => d.2 * d.2).sum
  have hresiduals : sxx * (pairs.map fun d => (d.2 - sxy / sxx * d.1) *
      (d.2 - sxy / sxx * d.1)).sum = sxx * syy - sxy ^ 2 := by
    rw [sum_residuals]
    change sxx * (syy - 2 * (sxy / sxx) * sxy + sxy / sxx * (sxy / sxx) * sxx) = _
    field_simp
    ring
  have hnonneg := mul_nonneg hpos.le (sum_residuals_nonneg pairs (sxy / sxx))
  rw [hresiduals] at hnonneg
  refine ⟨sub_nonneg.mp hnonneg, ?_⟩
  rw [← sum_residuals_eq_zero_iff, ← mul_eq_zero_iff_left hpos.ne', hresiduals, sub_eq_zero]
  exact eq_comm

end Pairs

/-! ## The sums of a sample -/

/-- The products of the deviations of two samples, summed. -/
def crossDeviations (x y : List K) : K :=
  ((x.zip y).map fun v => (v.1 - mean x) * (v.2 - mean y)).sum

section Sums

variable {x y : List K}

omit [LinearOrder K] [IsStrictOrderedRing K] in
theorem crossDeviations_comm (x y : List K) : crossDeviations y x = crossDeviations x y := by
  unfold crossDeviations
  rw [← List.zip_swap, List.map_map]
  congr 2
  funext v
  exact mul_comm _ _

theorem mean_affine (a b : K) (hne : x ≠ []) :
    mean (x.map fun v => a * v + b) = a * mean x + b := by
  have hlength : (x.length : K) ≠ 0 :=
    Nat.cast_ne_zero.mpr fun hzero => hne (List.length_eq_zero_iff.mp hzero)
  rw [mean, mean, List.sum_map_add, List.sum_map_mul_left, List.map_id', List.length_map,
    List.map_const', List.sum_replicate, nsmul_eq_mul, add_div, mul_div_assoc,
    mul_div_cancel_left₀ _ hlength]

theorem crossDeviations_affine (a b : K) (hne : x ≠ []) (y : List K) :
    crossDeviations (x.map fun v => a * v + b) y = a * crossDeviations x y := by
  unfold crossDeviations
  rw [mean_affine a b hne, ← List.sum_map_mul_left, List.zip_map_left, List.map_map]
  congr 2
  funext v
  rw [Function.comp_apply]
  dsimp only [Prod.map, id]
  ring

theorem squaredDeviations_affine (a b : K) (hne : x ≠ []) :
    squaredDeviations (x.map fun v => a * v + b) = a * a * squaredDeviations x := by
  unfold squaredDeviations
  rw [mean_affine a b hne, ← List.sum_map_mul_left, List.map_map]
  congr 2
  funext v
  rw [Function.comp_apply]
  ring

omit [LinearOrder K] [IsStrictOrderedRing K] in
theorem squaredDeviations_zip (hlength : x.length = y.length) :
    ((x.zip y).map fun v => (v.1 - mean x) * (v.1 - mean x)).sum = squaredDeviations x ∧
      ((x.zip y).map fun v => (v.2 - mean y) * (v.2 - mean y)).sum = squaredDeviations y := by
  have hfst := congrArg (fun l => (l.map fun v => (v - mean x) * (v - mean x)).sum)
    (List.map_fst_zip hlength.le)
  have hsnd := congrArg (fun l => (l.map fun v => (v - mean y) * (v - mean y)).sum)
    (List.map_snd_zip hlength.ge)
  rw [List.map_map] at hfst hsnd
  exact ⟨hfst, hsnd⟩

/-- What is computed where the lengths are right. -/
theorem pearson_of_length (sqrt : K → K) (incompleteBeta : K → K → K → K)
    (hlength : x.length = y.length) (hthree : 3 ≤ x.length) :
    pearson sqrt incompleteBeta x y =
      if squaredDeviations x = 0 then .error (.zeroVariance 0)
      else if squaredDeviations y = 0 then .error (.zeroVariance 1)
      else .ok ⟨max (-1) (min (crossDeviations x y /
          (sqrt (squaredDeviations x) * sqrt (squaredDeviations y))) 1),
        pearsonPValue sqrt incompleteBeta (max (-1) (min (crossDeviations x y /
          (sqrt (squaredDeviations x) * sqrt (squaredDeviations y))) 1)) x.length, x.length⟩ := by
  obtain ⟨hx, hy⟩ := squaredDeviations_zip hlength
  unfold pearson
  rw [if_neg (not_not.mpr hlength), if_neg (not_lt.mpr hthree)]
  dsimp only
  rw [List.map_map, List.map_map, List.map_map, ← hx, ← hy]
  rfl

theorem pearson_ok (sqrt : K → K) (incompleteBeta : K → K → K → K) :
    (∃ c, pearson sqrt incompleteBeta x y = .ok c) ↔
      x.length = y.length ∧ 3 ≤ x.length ∧ ¬ Constant x ∧ ¬ Constant y := by
  by_cases hlength : x.length = y.length
  · by_cases hthree : 3 ≤ x.length
    · rw [pearson_of_length sqrt incompleteBeta hlength hthree]
      by_cases hx : Constant x
      · rw [if_pos ((squaredDeviations_eq_zero_iff x).mpr hx)]
        exact iff_of_false (fun ⟨c, hc⟩ => by cases hc) fun h => h.2.2.1 hx
      · rw [if_neg (mt (squaredDeviations_eq_zero_iff x).mp hx)]
        by_cases hy : Constant y
        · rw [if_pos ((squaredDeviations_eq_zero_iff y).mpr hy)]
          exact iff_of_false (fun ⟨c, hc⟩ => by cases hc) fun h => h.2.2.2 hy
        · rw [if_neg (mt (squaredDeviations_eq_zero_iff y).mp hy)]
          exact iff_of_true ⟨_, rfl⟩ ⟨hlength, hthree, hx, hy⟩
    · refine iff_of_false (fun ⟨c, hc⟩ => ?_) fun h => hthree h.2.1
      rw [pearson, if_neg (not_not.mpr hlength), if_pos (not_le.mp hthree)] at hc
      cases hc
  · refine iff_of_false (fun ⟨c, hc⟩ => ?_) fun h => hlength h.1
    rw [pearson, if_pos hlength] at hc
    cases hc

end Sums

/-! ## Over the reals -/

section Real

variable {x y : List ℝ} (incompleteBeta : ℝ → ℝ → ℝ → ℝ)

/-- The coefficient before it is clamped. -/
noncomputable def coefficient (x y : List ℝ) : ℝ :=
  crossDeviations x y / (√(squaredDeviations x) * √(squaredDeviations y))

/-- Two samples of one length that both vary. -/
structure Vary (x y : List ℝ) : Prop where
  length : x.length = y.length
  three : 3 ≤ x.length
  left : ¬ Constant x
  right : ¬ Constant y

theorem Vary.ne_nil (h : Vary x y) : x ≠ [] := by
  intro hnil
  have := h.three
  rw [hnil, List.length_nil] at this
  omega

theorem Vary.squaredDeviations_pos (h : Vary x y) :
    0 < squaredDeviations x ∧ 0 < squaredDeviations y :=
  ⟨lt_of_le_of_ne (squaredDeviations_nonneg x) fun hzero =>
      h.left ((squaredDeviations_eq_zero_iff x).mp hzero.symm),
    lt_of_le_of_ne (squaredDeviations_nonneg y) fun hzero =>
      h.right ((squaredDeviations_eq_zero_iff y).mp hzero.symm)⟩

theorem Vary.symm (h : Vary x y) : Vary y x :=
  ⟨h.length.symm, h.length ▸ h.three, h.right, h.left⟩

theorem coefficient_comm (x y : List ℝ) : coefficient y x = coefficient x y := by
  rw [coefficient, coefficient, crossDeviations_comm, mul_comm]

/-- The square of the coefficient, without roots. -/
theorem Vary.coefficient_sq (h : Vary x y) :
    coefficient x y ^ 2 * (squaredDeviations x * squaredDeviations y) =
      crossDeviations x y ^ 2 := by
  obtain ⟨hx, hy⟩ := h.squaredDeviations_pos
  have hrootx := Real.sq_sqrt hx.le
  have hrooty := Real.sq_sqrt hy.le
  have hne : √(squaredDeviations x) * √(squaredDeviations y) ≠ 0 :=
    mul_ne_zero (Real.sqrt_pos.mpr hx).ne' (Real.sqrt_pos.mpr hy).ne'
  calc coefficient x y ^ 2 * (squaredDeviations x * squaredDeviations y)
      = coefficient x y ^ 2 * (√(squaredDeviations x) ^ 2 * √(squaredDeviations y) ^ 2) := by
        rw [hrootx, hrooty]
    _ = (coefficient x y * (√(squaredDeviations x) * √(squaredDeviations y))) ^ 2 := by ring
    _ = crossDeviations x y ^ 2 := by rw [coefficient, div_mul_cancel₀ _ hne]

/-- The inequality of `sum_products` for the two samples. -/
theorem Vary.cauchy (h : Vary x y) :
    crossDeviations x y ^ 2 ≤ squaredDeviations x * squaredDeviations y ∧
      (crossDeviations x y ^ 2 = squaredDeviations x * squaredDeviations y ↔
        ∀ v ∈ x.zip y, v.2 - mean y =
          crossDeviations x y / squaredDeviations x * (v.1 - mean x)) := by
  obtain ⟨hx, hy⟩ := squaredDeviations_zip h.length
  have hpos : 0 < (((x.zip y).map fun v => (v.1 - mean x, v.2 - mean y)).map fun d =>
      d.1 * d.1).sum := by
    rw [List.map_map]
    exact hx ▸ h.squaredDeviations_pos.1
  have hpairs := sum_products hpos
  simp only [List.map_map, List.forall_mem_map] at hpairs
  rw [← hx, ← hy]
  exact hpairs

theorem Vary.abs_coefficient_le_one (h : Vary x y) : |coefficient x y| ≤ 1 := by
  obtain ⟨hx, hy⟩ := h.squaredDeviations_pos
  have hle : coefficient x y ^ 2 * (squaredDeviations x * squaredDeviations y) ≤
      1 * (squaredDeviations x * squaredDeviations y) := by
    rw [h.coefficient_sq, one_mul]
    exact h.cauchy.1
  exact (sq_le_one_iff_abs_le_one _).mp (le_of_mul_le_mul_right hle (mul_pos hx hy))

/-- The clamp changes nothing. -/
theorem Vary.pearson_eq (h : Vary x y) : pearson Real.sqrt incompleteBeta x y =
    .ok ⟨coefficient x y, pearsonPValue Real.sqrt incompleteBeta (coefficient x y) x.length,
      x.length⟩ := by
  obtain ⟨hlow, hhigh⟩ := abs_le.mp h.abs_coefficient_le_one
  rw [pearson_of_length _ _ h.length h.three,
    if_neg (mt (squaredDeviations_eq_zero_iff x).mp h.left),
    if_neg (mt (squaredDeviations_eq_zero_iff y).mp h.right)]
  change Except.ok (Correlation.mk (max (-1) (min (coefficient x y) 1)) _ _) = _
  rw [← coefficient, min_eq_left hhigh, max_eq_right hlow]

/-! ## Lines -/

/-- The points of two samples lie on a line with the given slope. -/
def OnLine (slope : ℝ) (x y : List ℝ) : Prop := ∃ b, y = x.map fun v => slope * v + b

theorem coefficient_affine {a : ℝ} (b : ℝ) (hne : x ≠ []) (y : List ℝ) :
    coefficient (x.map fun v => a * v + b) y = a / |a| * coefficient x y := by
  rw [coefficient, crossDeviations_affine a b hne, squaredDeviations_affine a b hne,
    Real.sqrt_mul (mul_self_nonneg a), Real.sqrt_mul_self_eq_abs, coefficient, mul_assoc,
    mul_div_mul_comm]

theorem coefficient_self (h : ¬ Constant x) : coefficient x x = 1 := by
  have hpos : 0 < squaredDeviations x :=
    lt_of_le_of_ne (squaredDeviations_nonneg x) fun hzero =>
      h ((squaredDeviations_eq_zero_iff x).mp hzero.symm)
  have hself : crossDeviations x x = squaredDeviations x := by
    unfold crossDeviations squaredDeviations
    have hzip : x.zip x = x.map fun v => (v, v) := by
      simpa using List.zip_map' (f := id) (g := id) (l := x)
    rw [hzip, List.map_map]
    rfl
  rw [coefficient, hself, Real.mul_self_sqrt hpos.le, div_self hpos.ne']

theorem OnLine.coefficient_eq {a : ℝ} (hline : OnLine a x y) (h : Vary x y) :
    coefficient x y = a / |a| := by
  obtain ⟨b, rfl⟩ := hline
  rw [← coefficient_comm, coefficient_affine b h.ne_nil, coefficient_self h.left, mul_one]

/-- A slope is not zero where the second sample varies. -/
theorem OnLine.ne_zero {a : ℝ} (hline : OnLine a x y) (h : Vary x y) : a ≠ 0 := by
  obtain ⟨b, rfl⟩ := hline
  rintro rfl
  refine h.right fun v hv w hw => ?_
  obtain ⟨v, -, rfl⟩ := List.mem_map.mp hv
  obtain ⟨w, -, rfl⟩ := List.mem_map.mp hw
  rw [zero_mul, zero_mul]

/-- Where the inequality is an equation the points lie on the line of the sums. -/
theorem Vary.onLine (h : Vary x y) (hunit : |coefficient x y| = 1) :
    OnLine (crossDeviations x y / squaredDeviations x) x y := by
  have hsq : coefficient x y ^ 2 = 1 := by rw [← sq_abs, hunit, one_pow]
  have heq := h.coefficient_sq
  rw [hsq, one_mul] at heq
  have hpoints := h.cauchy.2.mp heq.symm
  refine ⟨mean y - crossDeviations x y / squaredDeviations x * mean x, ?_⟩
  have hforall : List.Forall₂ (fun v w => crossDeviations x y / squaredDeviations x * v +
      (mean y - crossDeviations x y / squaredDeviations x * mean x) = w) x y :=
    List.forall₂_iff_zip.mpr ⟨h.length, fun {v w} hmem => by
      linear_combination -hpoints (v, w) hmem⟩
  rw [← List.forall₂_map_left_iff, List.forall₂_eq_eq_eq] at hforall
  exact hforall.symm

theorem div_abs_of_pos {a : ℝ} (ha : 0 < a) : a / |a| = 1 := by
  rw [abs_of_pos ha, div_self ha.ne']

theorem div_abs_of_neg {a : ℝ} (ha : a < 0) : a / |a| = -1 := by
  rw [abs_of_neg ha, div_neg, div_self ha.ne]

theorem Vary.coefficient_eq_one_iff (h : Vary x y) :
    coefficient x y = 1 ↔ ∃ a, 0 < a ∧ OnLine a x y := by
  constructor
  · intro hone
    have hline := h.onLine (by rw [hone, abs_one])
    refine ⟨_, ?_, hline⟩
    rcases lt_trichotomy (crossDeviations x y / squaredDeviations x) 0 with hneg | hzero | hpos
    · rw [hline.coefficient_eq h, div_abs_of_neg hneg] at hone
      norm_num at hone
    · exact absurd hzero (hline.ne_zero h)
    · exact hpos
  · rintro ⟨a, ha, hline⟩
    rw [hline.coefficient_eq h, div_abs_of_pos ha]

theorem Vary.coefficient_eq_neg_one_iff (h : Vary x y) :
    coefficient x y = -1 ↔ ∃ a, a < 0 ∧ OnLine a x y := by
  constructor
  · intro hone
    have hline := h.onLine (by rw [hone, abs_neg, abs_one])
    refine ⟨_, ?_, hline⟩
    rcases lt_trichotomy (crossDeviations x y / squaredDeviations x) 0 with hneg | hzero | hpos
    · exact hneg
    · exact absurd hzero (hline.ne_zero h)
    · rw [hline.coefficient_eq h, div_abs_of_pos hpos] at hone
      norm_num at hone
  · rintro ⟨a, ha, hline⟩
    rw [hline.coefficient_eq h, div_abs_of_neg ha]

/-! ## The correlation -/

/-- The same correlation, the other way. -/
noncomputable def Correlation.opposite (c : Correlation ℝ (PValue ℝ)) :
    Correlation ℝ (PValue ℝ) := { c with r := -c.r }

theorem Vary.affine (h : Vary x y) {a : ℝ} (ha : a ≠ 0) (b : ℝ) :
    Vary (x.map fun v => a * v + b) y where
  length := by rw [List.length_map, h.length]
  three := by rw [List.length_map]; exact h.three
  left hconstant := h.left fun v hv w hw => by
    have heq := hconstant _ (List.mem_map_of_mem hv) _ (List.mem_map_of_mem hw)
    exact mul_left_cancel₀ ha (add_right_cancel heq)
  right := h.right

theorem Vary.pearson_comm (h : Vary x y) :
    pearson Real.sqrt incompleteBeta y x = pearson Real.sqrt incompleteBeta x y := by
  rw [h.symm.pearson_eq, h.pearson_eq, coefficient_comm, h.length]

theorem pearsonPValue_neg (r n : ℝ) :
    pearsonPValue Real.sqrt incompleteBeta (-r) n = pearsonPValue Real.sqrt incompleteBeta r n := by
  rw [pearsonPValue, pearsonPValue, abs_neg, neg_mul_neg, neg_mul, twoSidedTPValue_neg]

/-- Shifting and stretching a sample changes nothing, and turning it round the sign. -/
theorem Vary.pearson_affine (h : Vary x y) {c : Correlation ℝ (PValue ℝ)}
    (hc : pearson Real.sqrt incompleteBeta x y = .ok c) (b : ℝ) {a : ℝ} :
    (0 < a → pearson Real.sqrt incompleteBeta (x.map fun v => a * v + b) y = .ok c) ∧
      (a < 0 → pearson Real.sqrt incompleteBeta (x.map fun v => a * v + b) y =
        .ok c.opposite) := by
  rw [h.pearson_eq] at hc
  obtain rfl := Except.ok.inj hc
  constructor
  · intro ha
    rw [(h.affine ha.ne' b).pearson_eq, coefficient_affine b h.ne_nil, div_abs_of_pos ha, one_mul,
      List.length_map]
  · intro ha
    rw [(h.affine ha.ne b).pearson_eq, coefficient_affine b h.ne_nil, div_abs_of_neg ha,
      neg_one_mul, List.length_map, pearsonPValue_neg]
    rfl

/-- Two samples are correlated where both vary, the clamp never acts, the coefficient is
one or minus one exactly for points on a line, and only the sign sees how the samples
are scaled. -/
theorem pearson_exact (x y : List ℝ) :
    ((∃ c, pearson Real.sqrt incompleteBeta x y = .ok c) ↔
        x.length = y.length ∧ 3 ≤ x.length ∧ ¬ Constant x ∧ ¬ Constant y) ∧
      ∀ c, pearson Real.sqrt incompleteBeta x y = .ok c →
        c.r = coefficient x y ∧ |c.r| ≤ 1 ∧
          (c.r = 1 ↔ ∃ a, 0 < a ∧ OnLine a x y) ∧ (c.r = -1 ↔ ∃ a, a < 0 ∧ OnLine a x y) ∧
          pearson Real.sqrt incompleteBeta y x = .ok c ∧
          ∀ a b, (0 < a → pearson Real.sqrt incompleteBeta (x.map fun v => a * v + b) y = .ok c) ∧
            (a < 0 → pearson Real.sqrt incompleteBeta (x.map fun v => a * v + b) y =
              .ok c.opposite) := by
  refine ⟨pearson_ok _ _, fun c hc => ?_⟩
  obtain ⟨hlength, hthree, hx, hy⟩ := (pearson_ok _ _).mp ⟨c, hc⟩
  have h : Vary x y := ⟨hlength, hthree, hx, hy⟩
  have hcoefficient : c.r = coefficient x y := by
    rw [h.pearson_eq] at hc
    rw [← Except.ok.inj hc]
  rw [hcoefficient]
  exact ⟨rfl, h.abs_coefficient_le_one, h.coefficient_eq_one_iff, h.coefficient_eq_neg_one_iff,
    (h.pearson_comm incompleteBeta).trans hc, fun a b => h.pearson_affine incompleteBeta hc b⟩

/-- Three points on a falling line. -/
theorem pearson_exact_falling : ∃ c, pearson Real.sqrt (fun _ _ x => x) [0, 1, 2] [5, 3, 1] =
    .ok c ∧ c.r = -1 := by
  obtain ⟨hok, hr⟩ := pearson_exact (fun _ _ x => x) [0, 1, 2] [5, 3, 1]
  obtain ⟨c, hc⟩ := hok.mpr ⟨rfl, le_rfl,
    fun h => by simpa using h 0 (by simp) 1 (by simp),
    fun h => by simpa using h 5 (by simp) 3 (by simp)⟩
  refine ⟨c, hc, (hr c hc).2.2.2.1.mpr ⟨-2, by norm_num, 5, ?_⟩⟩
  norm_num

end Real

end Samples
end Analysis
end IndieWorker
