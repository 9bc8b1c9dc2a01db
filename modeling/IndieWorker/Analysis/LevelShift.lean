import IndieWorker.Analysis.Changepoint

/-!
# The best split

What a change point of `src/analysis/regression.rs` says of its series, over the
reals, and the series with an exact step.
-/

namespace IndieWorker
namespace Analysis
namespace Samples

open Argmax

/-! ## An exact step -/

/-- `k` observations at one level and `l` at another. -/
def step (k l : Nat) (x y : ℝ) : List ℝ := List.replicate k x ++ List.replicate l y

section Step

variable {k l : Nat} {x y : ℝ}

theorem length_step : (step k l x y).length = k + l := by
  rw [step, List.length_append, List.length_replicate, List.length_replicate]

theorem take_step : (step k l x y).take k = List.replicate k x := by
  rw [step, List.take_left' List.length_replicate]

theorem drop_step : (step k l x y).drop k = List.replicate l y := by
  rw [step, List.drop_left' List.length_replicate]

/-- The deviations of the two levels cancel. -/
theorem mul_mean_step (hk : 0 < k) :
    k * (x - mean (step k l x y)) + l * (y - mean (step k l x y)) = 0 := by
  have hne : (k : ℝ) + l ≠ 0 := by positivity
  have hmean : mean (step k l x y) = (k * x + l * y) / (k + l) := by
    rw [mean, length_step, step, List.sum_append, List.sum_replicate, List.sum_replicate]
    simp
  rw [hmean]
  field_simp
  ring

theorem sub_mean_ne_zero (hk : 0 < k) (hl : 0 < l) (hne : x ≠ y) :
    x - mean (step k l x y) ≠ 0 ∧ y - mean (step k l x y) ≠ 0 := by
  have hcancel := mul_mean_step (l := l) (x := x) (y := y) hk
  have hk' : (k : ℝ) ≠ 0 := Nat.cast_ne_zero.mpr (by omega)
  have hl' : (l : ℝ) ≠ 0 := Nat.cast_ne_zero.mpr (by omega)
  constructor
  · intro hx
    rw [hx, mul_zero, zero_add] at hcancel
    have hy := (mul_eq_zero.mp hcancel).resolve_left hl'
    exact hne ((sub_eq_zero.mp hx).trans (sub_eq_zero.mp hy).symm)
  · intro hy
    rw [hy, mul_zero, add_zero] at hcancel
    have hx := (mul_eq_zero.mp hcancel).resolve_left hk'
    exact hne ((sub_eq_zero.mp hx).trans (sub_eq_zero.mp hy).symm)

theorem deviation_before {i : Nat} (hi : i ≤ k) :
    deviation (step k l x y) i = i * (x - mean (step k l x y)) := by
  have htake : (step k l x y).take i = List.replicate i x := by
    rw [step, List.take_append_of_le_length (by rwa [List.length_replicate]),
      List.take_replicate, Nat.min_eq_left hi]
  rw [deviation, htake, List.map_replicate, List.sum_replicate, nsmul_eq_mul]

theorem deviation_after {i : Nat} (hk : 0 < k) (hki : k ≤ i) (hi : i ≤ k + l) :
    deviation (step k l x y) i = -((k + l - i) * (y - mean (step k l x y))) := by
  have htake : (step k l x y).take i = List.replicate k x ++ List.replicate (i - k) y := by
    rw [step, List.take_append, List.length_replicate, List.take_replicate, List.take_replicate,
      Nat.min_eq_right hki, Nat.min_eq_left (by omega)]
  rw [deviation, htake, List.map_append, List.map_replicate, List.map_replicate, List.sum_append,
    List.sum_replicate, List.sum_replicate, nsmul_eq_mul, nsmul_eq_mul, Nat.cast_sub hki]
  linarith only [mul_mean_step (l := l) (x := x) (y := y) hk]

end Step

/-! ## The score of a step -/

theorem score_eq_sqrt (series : List ℝ) (split : Nat) :
    score Real.sqrt series split = Real.sqrt (deviation series split ^ 2 /
      (split * (series.length - split) / series.length)) := by
  rw [score, splitScore, Real.sqrt_div (sq_nonneg _), Real.sqrt_sq_eq_abs]

/-- On one side of the step the squared score grows with the distance from the end. -/
theorem square_lt {n p q d : ℝ} (hp : 0 < p) (hpq : p < q) (hq : q < n) (hd : d ≠ 0) :
    (p * d) ^ 2 / (p * (n - p) / n) < (q * d) ^ 2 / (q * (n - q) / n) := by
  have hn : 0 < n := by linarith
  have hform : ∀ r, 0 < r → r < n →
      (r * d) ^ 2 / (r * (n - r) / n) = n * d ^ 2 * (r / (n - r)) := by
    intro r hr hrn
    have hgap : n - r ≠ 0 := (sub_pos.mpr hrn).ne'
    field_simp
  rw [hform p hp (hpq.trans hq), hform q (hp.trans hpq) hq]
  apply mul_lt_mul_of_pos_left _ (by positivity)
  rw [div_lt_div_iff₀ (by linarith) (by linarith)]
  nlinarith only [mul_lt_mul_of_pos_right hpq hn]

/-- No other split scores as much as the step itself. -/
theorem score_step_lt {k l i : Nat} {x y : ℝ} (hne : x ≠ y) (hk : 0 < k) (hl : 0 < l) (hi : 0 < i)
    (hin : i < k + l) (hik : i ≠ k) :
    score Real.sqrt (step k l x y) i < score Real.sqrt (step k l x y) k := by
  obtain ⟨hx, hy⟩ := sub_mean_ne_zero hk hl hne
  have hkl : ((k + l : Nat) : ℝ) = k + l := Nat.cast_add k l
  have hlpos : (0 : ℝ) < l := Nat.cast_pos.mpr hl
  have hipos : (0 : ℝ) < i := Nat.cast_pos.mpr hi
  have hkpos : (0 : ℝ) < k := Nat.cast_pos.mpr hk
  have hin' : (i : ℝ) < k + l := by
    rw [← hkl]
    exact Nat.cast_lt.mpr hin
  rw [score_eq_sqrt, score_eq_sqrt, length_step, hkl]
  apply Real.sqrt_lt_sqrt
  · have hgap : (0 : ℝ) ≤ k + l - i := by linarith
    positivity
  · rcases Nat.lt_or_gt_of_ne hik with hlt | hgt
    · rw [deviation_before hlt.le, deviation_before le_rfl]
      exact square_lt hipos (Nat.cast_lt.mpr hlt) (by linarith) hx
    · have hki : (k : ℝ) < i := Nat.cast_lt.mpr hgt
      have hafter := square_lt (n := k + l) (p := k + l - i) (q := k + l - k) (by linarith)
        (by linarith) (by linarith) hy
      rw [deviation_after hk hgt.le hin.le, deviation_after hk le_rfl (by omega), neg_sq, neg_sq]
      rw [sub_sub_cancel, sub_sub_cancel, mul_comm _ (i : ℝ), mul_comm _ (k : ℝ)] at hafter
      exact hafter

theorem bestSplit_step {k l segment : Nat} {x y : ℝ} (hne : x ≠ y) (hsegment : 0 < segment)
    (hk : segment ≤ k) (hl : segment ≤ l) :
    bestSplit Real.sqrt (step k l x y) segment = k := by
  have hroom : 2 * segment ≤ (step k l x y).length := by
    rw [length_step]
    omega
  apply (bestSplit_firstLargest Real.sqrt hsegment hroom).eq_of_lt
  · rw [Admissible, length_step]
    omega
  · intro i hi hik
    rw [Admissible, length_step] at hi
    exact score_step_lt hne (by omega) (by omega) (by omega) (by omega) hik

/-! ## The verdict -/

section Verdict

variable {sqrt : ℝ → ℝ} {incompleteBeta : ℝ → ℝ → ℝ → ℝ} {series : List ℝ}

theorem welchT_means {before after : List ℝ} {test : TwoSample ℝ}
    (h : welchT sqrt incompleteBeta before after = .ok test) :
    test.meanBefore = mean before ∧ test.meanAfter = mean after := by
  rw [welchT] at h
  split at h
  · cases h
  · split at h
    · cases h
    · dsimp only at h
      split at h
      · cases h
      · rw [← Except.ok.inj h]
        exact ⟨rfl, rfl⟩

/-- Whatever the test says, a change point is where the loop ended. -/
theorem judge_eq_some {index : Nat} {alpha : ℝ} {cp : ChangePoint ℝ}
    (h : judge sqrt incompleteBeta series index alpha = .ok (some cp)) :
    cp.index = index ∧ cp.meanBefore = mean (series.take index) ∧
      cp.meanAfter = mean (series.drop index) := by
  rw [judge] at h
  dsimp only at h
  split at h
  · next test htest =>
    obtain ⟨hbefore, hafter⟩ := welchT_means htest
    split at h
    · rw [← Option.some.inj (Except.ok.inj h)]
      exact ⟨rfl, hbefore, hafter⟩
    · cases h
  · split at h
    · rw [← Option.some.inj (Except.ok.inj h)]
      exact ⟨rfl, rfl, rfl⟩
    · cases h
  · cases h

/-- Two constant segments at different levels are a change point at any level of
significance. -/
theorem judge_step (sqrt : ℝ → ℝ) (incompleteBeta : ℝ → ℝ → ℝ → ℝ) {k l : Nat} {x y : ℝ}
    (alpha : ℝ) (hne : x ≠ y) (hk : 2 ≤ k) (hl : 2 ≤ l) :
    ∃ cp, judge sqrt incompleteBeta (step k l x y) k alpha = .ok (some cp) ∧ cp.index = k := by
  have hconstant : ∀ (n : Nat) (v : ℝ), Constant (List.replicate n v) := by
    intro n v w hw w' hw'
    rw [List.eq_of_mem_replicate hw, List.eq_of_mem_replicate hw']
  have hzero : welchT sqrt incompleteBeta (List.replicate k x) (List.replicate l y) =
      .error (.zeroVariance 0) := by
    apply welchT_constant sqrt incompleteBeta _ _ (hconstant k x) (hconstant l y)
    · rwa [List.length_replicate]
    · rwa [List.length_replicate]
  have hlevels : |y - x| > 0 := abs_pos.mpr (sub_ne_zero.mpr hne.symm)
  rw [judge, take_step, drop_step, hzero]
  dsimp only
  rw [mean_replicate (by omega), mean_replicate (by omega), if_pos hlevels]
  exact ⟨_, rfl, rfl⟩

theorem cusumChangepoint_finite (b : Build) {minSegment : UInt64} (alpha : ℝ)
    (hlength : series.length < 2 ^ 64) (hroom : 2 * max minSegment.toNat 2 ≤ series.length) :
    cusumChangepoint sqrt incompleteBeta b (series.map some) minSegment alpha =
      some (judge sqrt incompleteBeta series (bestSplit sqrt series (max minSegment.toNat 2))
        alpha) := by
  have hfits : minSegment.toNat < 2 ^ 63 := by omega
  obtain ⟨need, hmul, hneed⟩ := mul_segment b hfits
  have hlong : ¬(series.map some).length < need.toNat := by
    rw [List.length_map, hneed]
    omega
  have hsplit := bestSplit_le sqrt (by omega) hroom
  rw [cusumChangepoint, hmul, Option.bind_some, if_neg hlong, checkFinite_map_some, toNat_segment]
  exact if_neg (Nat.not_lt.mpr hsplit)

/-- A change point is the best of the splits that leave a segment on both sides, and
an exact step is found where it is. -/
theorem changepoint_best_split (incompleteBeta : ℝ → ℝ → ℝ → ℝ) (b : Build) {series : List ℝ}
    {minSegment : UInt64} (alpha : ℝ) (hlength : series.length < 2 ^ 64)
    (hroom : 2 * max minSegment.toNat 2 ≤ series.length) :
    (∀ cp, cusumChangepoint Real.sqrt incompleteBeta b (series.map some) minSegment alpha =
        some (.ok (some cp)) →
      max minSegment.toNat 2 ≤ cp.index ∧
        cp.index ≤ series.length - max minSegment.toNat 2 ∧
        cp.meanBefore = mean (series.take cp.index) ∧
        cp.meanAfter = mean (series.drop cp.index) ∧
        ∀ split, max minSegment.toNat 2 ≤ split →
          split ≤ series.length - max minSegment.toNat 2 →
          score Real.sqrt series split ≤ score Real.sqrt series cp.index) ∧
    ∀ k x y, x ≠ y → max minSegment.toNat 2 ≤ k →
      k ≤ series.length - max minSegment.toNat 2 →
      series = List.replicate k x ++ List.replicate (series.length - k) y →
      ∃ cp, cusumChangepoint Real.sqrt incompleteBeta b (series.map some) minSegment alpha =
        some (.ok (some cp)) ∧ cp.index = k := by
  rw [cusumChangepoint_finite b alpha hlength hroom]
  constructor
  · intro cp hcp
    obtain ⟨hindex, hbefore, hafter⟩ := judge_eq_some (Option.some.inj hcp)
    have hbest := bestSplit_firstLargest Real.sqrt (by omega) hroom
    rw [← hindex] at hbefore hafter hbest
    obtain ⟨⟨hlow, hhigh⟩, hwithin⟩ := hbest.offered
    refine ⟨hlow, by omega, hbefore, hafter, fun split hsplit hsplit' => ?_⟩
    apply hbest.largest split
    rw [Admissible]
    omega
  · intro k x y hne hk hk' hseries
    have hstep : series = step k (series.length - k) x y := hseries
    have hsplit : bestSplit Real.sqrt series (max minSegment.toNat 2) = k := by
      rw [hstep]
      exact bestSplit_step hne (by omega) hk (by omega)
    obtain ⟨cp, hcp, hindex⟩ := judge_step Real.sqrt incompleteBeta alpha hne
      (show 2 ≤ k by omega) (show 2 ≤ series.length - k by omega)
    rw [← hstep] at hcp
    rw [hsplit, hcp]
    exact ⟨cp, rfl, hindex⟩

/-- Two observations at each of two levels. -/
theorem changepoint_two_and_two : ∃ cp,
    cusumChangepoint Real.sqrt (fun _ _ _ => 1) .checked [some 0, some 0, some 1, some 1] 2 0 =
      some (.ok (some cp)) ∧ cp.index = 2 := by
  have hroom : 2 * max (2 : UInt64).toNat 2 ≤ [(0 : ℝ), 0, 1, 1].length := by decide
  exact (changepoint_best_split (fun _ _ _ => 1) .checked 0 (by decide) hroom).2 2 0 1 zero_ne_one
    (by decide) (by decide) rfl

end Verdict

end Samples
end Analysis
end IndieWorker
