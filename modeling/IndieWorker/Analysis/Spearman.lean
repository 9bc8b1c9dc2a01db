import IndieWorker.Analysis.Ranks
import Mathlib.Data.Real.Basic

/-!
# Spearman correlation

When `spearman` has an answer over the reals, and what its coefficient says of the order
of the values.
-/

namespace IndieWorker
namespace Analysis
namespace Samples

open MidRank

variable {α β : Type} [LinearOrder α] [LinearOrder β]

/-! ## Ranks -/

section Ranks

variable {x : List α} {y : List β}

/-- The rank of a value as a real number. -/
noncomputable def rank (values : List α) (v : α) : ℝ := (midRank values v : ℝ)

theorem fieldRanks_eq_map (values : List α) :
    (fieldRanks values : List ℝ) = values.map (rank values) := by
  rw [fieldRanks, ranks_eq, List.map_map]
  rfl

theorem rank_strictMonoOn (values : List α) : StrictMonoOn (rank values) {v | v ∈ values} :=
  fun _ hv _ hw h => Rat.cast_lt.mpr (midRank_strictMonoOn values hv hw h)

theorem constant_fieldRanks_iff (values : List α) :
    Constant (fieldRanks values : List ℝ) ↔ Constant values := by
  rw [fieldRanks_eq_map]
  constructor
  · intro h v hv w hw
    exact (rank_strictMonoOn values).injOn hv hw
      (h _ (List.mem_map_of_mem hv) _ (List.mem_map_of_mem hw))
  · intro h v hv w hw
    obtain ⟨v, hmem, rfl⟩ := List.mem_map.mp hv
    obtain ⟨w, hmem', rfl⟩ := List.mem_map.mp hw
    rw [h v hmem w hmem']

/-- A line through the ranks, at every pair of values. -/
theorem OnLine.rank {a : ℝ} (hline : OnLine a (fieldRanks x) (fieldRanks y)) :
    ∃ b, ∀ v ∈ x.zip y, Samples.rank y v.2 = a * Samples.rank x v.1 + b := by
  obtain ⟨b, hb⟩ := hline
  rw [fieldRanks_eq_map, fieldRanks_eq_map, List.map_map, ← List.forall₂_eq_eq_eq,
    List.forall₂_map_left_iff, List.forall₂_map_right_iff, List.forall₂_iff_zip] at hb
  refine ⟨b, fun v hv => hb.2 ?_⟩
  rw [← List.zip_swap]
  exact List.mem_map_of_mem hv

theorem OnLine.of_rank {a b : ℝ} (hlength : x.length = y.length)
    (h : ∀ v ∈ x.zip y, Samples.rank y v.2 = a * Samples.rank x v.1 + b) :
    OnLine a (fieldRanks x) (fieldRanks y) := by
  refine ⟨b, ?_⟩
  rw [fieldRanks_eq_map, fieldRanks_eq_map, List.map_map, ← List.forall₂_eq_eq_eq,
    List.forall₂_map_left_iff, List.forall₂_map_right_iff, List.forall₂_iff_zip]
  refine ⟨hlength.symm, fun {w v} hmem => h (v, w) ?_⟩
  rw [← List.zip_swap]
  exact List.mem_map_of_mem hmem

theorem onLine_iff_orderedAlike (hlength : x.length = y.length) :
    (∃ a, 0 < a ∧ OnLine a (fieldRanks x) (fieldRanks y)) ↔ OrderedAlike x y := by
  constructor
  · rintro ⟨a, ha, hline⟩ v hv w hw
    obtain ⟨b, hb⟩ := hline.rank
    have hx := (rank_strictMonoOn x).lt_iff_lt (List.of_mem_zip hv).1 (List.of_mem_zip hw).1
    have hy := (rank_strictMonoOn y).lt_iff_lt (List.of_mem_zip hv).2 (List.of_mem_zip hw).2
    rw [← hx, ← hy, hb v hv, hb w hw, add_lt_add_iff_right, mul_lt_mul_iff_right₀ ha]
  · intro h
    refine ⟨1, one_pos, OnLine.of_rank (b := 0) hlength fun v hv => ?_⟩
    rw [one_mul, add_zero, Samples.rank, Samples.rank, h.midRank_eq hlength hv]

theorem onLine_iff_orderedOppositely (hlength : x.length = y.length) :
    (∃ a, a < 0 ∧ OnLine a (fieldRanks x) (fieldRanks y)) ↔ OrderedOppositely x y := by
  constructor
  · rintro ⟨a, ha, hline⟩ v hv w hw
    obtain ⟨b, hb⟩ := hline.rank
    have hx := (rank_strictMonoOn x).lt_iff_lt (List.of_mem_zip hv).1 (List.of_mem_zip hw).1
    have hy := (rank_strictMonoOn y).lt_iff_lt (List.of_mem_zip hw).2 (List.of_mem_zip hv).2
    rw [← hx, ← hy, hb v hv, hb w hw, add_lt_add_iff_right, mul_lt_mul_left_of_neg ha]
  · intro h
    refine ⟨-1, by norm_num, OnLine.of_rank (b := x.length + 1) hlength fun v hv => ?_⟩
    have hsum : (midRank x v.1 + midRank y v.2 : ℝ) = x.length + 1 := by
      exact_mod_cast h.midRank_add hlength hv
    rw [Samples.rank, Samples.rank]
    linarith only [hsum]

end Ranks

/-! ## The correlation -/

section Real

variable (incompleteBeta : ℝ → ℝ → ℝ → ℝ)

theorem spearman_map_some {x : List α} {y : List β} (hlength : x.length = y.length) :
    spearman Real.sqrt incompleteBeta (x.map some) (y.map some) =
      pearson Real.sqrt incompleteBeta (fieldRanks x) (fieldRanks y) := by
  rw [spearman, if_neg (by rw [List.length_map, List.length_map]; exact not_not.mpr hlength),
    checkFinite_map_some, checkFinite_map_some]
  rfl

/-- Only numbers are correlated. -/
theorem finite_of_spearman {x : List (Option α)} {y : List (Option β)}
    {c : Correlation ℝ (PValue ℝ)} (h : spearman Real.sqrt incompleteBeta x y = .ok c) :
    ∃ (xs : List α) (ys : List β),
      x = xs.map some ∧ y = ys.map some ∧ xs.length = ys.length := by
  rw [spearman] at h
  split at h
  · cases h
  · next hlength =>
    cases hx : checkFinite x with
    | error error =>
      rw [hx] at h
      cases h
    | ok xs =>
      cases hy : checkFinite y with
      | error error =>
        rw [hx, hy] at h
        cases h
      | ok ys =>
        have hxs := eq_map_some_of_checkFinite hx
        have hys := eq_map_some_of_checkFinite hy
        rw [not_not, hxs, hys, List.length_map, List.length_map] at hlength
        exact ⟨xs, ys, hxs, hys, hlength⟩

/-- Two series are correlated where both are numbers that vary, and the coefficient is
one exactly where they order every pair of places alike, minus one where they order
them the opposite way. -/
theorem spearman_exact (x : List (Option α)) (y : List (Option β)) :
    ((∃ c, spearman Real.sqrt incompleteBeta x y = .ok c) ↔
        ∃ (xs : List α) (ys : List β), x = xs.map some ∧ y = ys.map some ∧
          xs.length = ys.length ∧ 3 ≤ xs.length ∧ ¬ Constant xs ∧ ¬ Constant ys) ∧
      ∀ (c : Correlation ℝ (PValue ℝ)) (xs : List α) (ys : List β),
        x = xs.map some → y = ys.map some →
        spearman Real.sqrt incompleteBeta x y = .ok c →
          |c.r| ≤ 1 ∧ (c.r = 1 ↔ OrderedAlike xs ys) ∧ (c.r = -1 ↔ OrderedOppositely xs ys) ∧
            spearman Real.sqrt incompleteBeta y x = .ok c := by
  have hvary : ∀ {xs : List α} {ys : List β}, xs.length = ys.length →
      ((∃ c, pearson Real.sqrt incompleteBeta (fieldRanks xs) (fieldRanks ys) = .ok c) ↔
        3 ≤ xs.length ∧ ¬ Constant xs ∧ ¬ Constant ys) := by
    intro xs ys hlength
    have hlengths : ∀ {γ : Type} [LinearOrder γ] (values : List γ),
        (fieldRanks values : List ℝ).length = values.length := by
      intro γ _ values
      rw [fieldRanks_eq_map, List.length_map]
    rw [pearson_ok, hlengths, hlengths, constant_fieldRanks_iff, constant_fieldRanks_iff]
    exact and_iff_right hlength
  constructor
  · constructor
    · rintro ⟨c, hc⟩
      obtain ⟨xs, ys, rfl, rfl, hlength⟩ := finite_of_spearman incompleteBeta hc
      rw [spearman_map_some incompleteBeta hlength] at hc
      exact ⟨xs, ys, rfl, rfl, hlength, (hvary hlength).mp ⟨c, hc⟩⟩
    · rintro ⟨xs, ys, rfl, rfl, hlength, hok⟩
      rw [spearman_map_some incompleteBeta hlength]
      exact (hvary hlength).mpr hok
  · rintro c xs ys rfl rfl hc
    obtain ⟨xs', ys', hxs, hys, hlength⟩ := finite_of_spearman incompleteBeta hc
    obtain rfl := List.map_injective_iff.mpr (Option.some_injective _) hxs
    obtain rfl := List.map_injective_iff.mpr (Option.some_injective _) hys
    rw [spearman_map_some incompleteBeta hlength] at hc
    obtain ⟨hlengths, hthree, hx, hy⟩ := (pearson_ok _ _).mp ⟨c, hc⟩
    have h : Vary (fieldRanks xs : List ℝ) (fieldRanks ys) := ⟨hlengths, hthree, hx, hy⟩
    have hr : c.r = coefficient (fieldRanks xs) (fieldRanks ys) := by
      rw [h.pearson_eq] at hc
      rw [← Except.ok.inj hc]
    rw [hr, h.coefficient_eq_one_iff, h.coefficient_eq_neg_one_iff,
      onLine_iff_orderedAlike hlength, onLine_iff_orderedOppositely hlength,
      spearman_map_some incompleteBeta hlength.symm]
    exact ⟨h.abs_coefficient_le_one, Iff.rfl, Iff.rfl, (h.pearson_comm incompleteBeta).trans hc⟩

/-- Two series that run against each other, on no line. -/
theorem spearman_exact_against :
    let x : List ℤ := [1, 2, 4]
    let y : List ℤ := [9, 3, 1]
    ∃ c, spearman Real.sqrt (fun _ _ x => x) (x.map some) (y.map some) = .ok c ∧ c.r = -1 := by
  intro x y
  have hagainst : OrderedOppositely x y := by
    unfold OrderedOppositely
    decide
  obtain ⟨hok, hr⟩ := spearman_exact (fun _ _ x => x) (x.map some) (y.map some)
  obtain ⟨c, hc⟩ := hok.mpr ⟨x, y, rfl, rfl, rfl, le_rfl, by unfold Constant; decide,
    by unfold Constant; decide⟩
  exact ⟨c, hc, (hr c x y rfl rfl hc).2.2.1.mpr hagainst⟩

end Real

end Samples
end Analysis
end IndieWorker
