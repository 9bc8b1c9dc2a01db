/-
Step-up adjustment of sorted values.

Of `m` values in increasing order the one at rank `k`, counted from zero, becomes
the least of one and the candidates `s j * m / (j + 1)` at rank `k` and above.
-/
import Mathlib.Algebra.Order.Field.Basic
import Mathlib.Data.Nat.Find
import Mathlib.Order.Bounds.Basic
import Mathlib.Tactic.Linarith
import Mathlib.Tactic.Positivity

namespace IndieWorker
namespace StepUp

variable {α : Type} [Field α]

/-- The candidate at a rank. -/
def candidate (s : ℕ → α) (m k : ℕ) : α := s k * m / (k + 1)

/-- One, and the candidates at a rank and above. -/
def above (s : ℕ → α) (m k : ℕ) : Set α := {x | x = 1 ∨ ∃ j, k ≤ j ∧ j < m ∧ x = candidate s m j}

variable {s : ℕ → α} {m k l : ℕ} {q r : α}

theorem above_congr {s' : ℕ → α} (h : ∀ j < m, s j = s' j) : above s m k = above s' m k := by
  ext x
  constructor
  · intro hx
    rcases hx with hx | ⟨j, hge, hlt, hx⟩
    · exact Or.inl hx
    · exact Or.inr ⟨j, hge, hlt, by rw [hx, candidate, candidate, h j hlt]⟩
  · intro hx
    rcases hx with hx | ⟨j, hge, hlt, hx⟩
    · exact Or.inl hx
    · exact Or.inr ⟨j, hge, hlt, by rw [hx, candidate, candidate, h j hlt]⟩

variable [LinearOrder α]

/-- The largest rank, counted from one, whose value is within its share of `a`. -/
def rejected (s : ℕ → α) (m : ℕ) (a : α) : ℕ :=
  Nat.findGreatest (fun k => 0 < k ∧ s (k - 1) ≤ a * k / m) m

/-- Values from zero to one in increasing order. -/
structure Sorted (s : ℕ → α) (m : ℕ) : Prop where
  nonneg : ∀ j < m, 0 ≤ s j
  le_one : ∀ j < m, s j ≤ 1
  mono : ∀ i j, i ≤ j → j < m → s i ≤ s j

theorem isLeast_above_top (s : ℕ → α) (m : ℕ) : IsLeast (above s m m) 1 := by
  constructor
  · exact Or.inl rfl
  · intro x hx
    rcases hx with hx | ⟨j, hge, hlt, _⟩
    · exact hx.ge
    · omega

/-- One step down in the ranks. -/
theorem isLeast_above_step (hk : k < m) (h : IsLeast (above s m (k + 1)) r) :
    IsLeast (above s m k) (min (min r (candidate s m k)) 1) := by
  have hone : (1 : α) ∈ above s m k := Or.inl rfl
  have hcand : candidate s m k ∈ above s m k := Or.inr ⟨k, le_rfl, hk, rfl⟩
  have hr : r ∈ above s m k := by
    rcases h.1 with hr | ⟨j, hge, hlt, hr⟩
    · exact Or.inl hr
    · exact Or.inr ⟨j, by omega, hlt, hr⟩
  constructor
  · rcases min_choice (min r (candidate s m k)) 1 with hmin | hmin
    · rw [hmin]
      rcases min_choice r (candidate s m k) with hmin | hmin
      · rw [hmin]
        exact hr
      · rw [hmin]
        exact hcand
    · rw [hmin]
      exact hone
  · intro x hx
    rcases hx with hx | ⟨j, hge, hlt, hx⟩
    · rw [hx]
      exact min_le_right _ _
    · by_cases hj : j = k
      · subst hj
        rw [hx]
        exact (min_le_left _ _).trans (min_le_right _ _)
      · have hup : x ∈ above s m (k + 1) := Or.inr ⟨j, by omega, hlt, hx⟩
        exact ((min_le_left _ _).trans (min_le_left _ _)).trans (h.2 hup)

theorem value_le_one (h : IsLeast (above s m k) q) : q ≤ 1 := h.2 (Or.inl rfl)

/-- Adjusted values grow with the rank. -/
theorem value_mono (hkl : k ≤ l) (hq : IsLeast (above s m k) q) (hr : IsLeast (above s m l) r) :
    q ≤ r := by
  apply hq.2
  rcases hr.1 with hr | ⟨j, hge, hlt, hr⟩
  · exact Or.inl hr
  · exact Or.inr ⟨j, by omega, hlt, hr⟩

variable [IsStrictOrderedRing α]

/-- A candidate is at least its value, as no rank is above the number of values. -/
theorem le_candidate (hs : Sorted s m) (hk : k < m) : s k ≤ candidate s m k := by
  have hpos : (0 : α) < (k : α) + 1 := by positivity
  have hrank : (k : α) + 1 ≤ m := by exact_mod_cast hk
  rw [candidate, le_div_iff₀ hpos]
  exact mul_le_mul_of_nonneg_left hrank (hs.nonneg k hk)

theorem le_value (hs : Sorted s m) (hk : k < m) (h : IsLeast (above s m k) q) : s k ≤ q := by
  rcases h.1 with hq | ⟨j, hge, hlt, hq⟩
  · rw [hq]
    exact hs.le_one k hk
  · rw [hq]
    exact (hs.mono k j hge hlt).trans (le_candidate hs hlt)

/-- Of equal values the lower rank has the larger candidate. -/
theorem candidate_anti (hs : Sorted s m) (hkl : k ≤ l) (hl : l < m) (heq : s k = s l) :
    candidate s m l ≤ candidate s m k := by
  have hk : (0 : α) < (k : α) + 1 := by positivity
  have hranks : (k : α) + 1 ≤ (l : α) + 1 := by
    have : (k : α) ≤ l := by exact_mod_cast hkl
    linarith
  have hnonneg : 0 ≤ s l * m := mul_nonneg (hs.nonneg l hl) (Nat.cast_nonneg m)
  rw [candidate, candidate, heq]
  exact div_le_div_of_nonneg_left hnonneg hk hranks

/-- Adjusted values follow the order of the values, ties included. -/
theorem value_le_value (hs : Sorted s m) (hk : k < m) (hkl : s k ≤ s l)
    (hq : IsLeast (above s m k) q) (hr : IsLeast (above s m l) r) : q ≤ r := by
  by_cases hrank : k ≤ l
  · exact value_mono hrank hq hr
  · have heq : s l = s k := le_antisymm (hs.mono l k (by omega) hk) hkl
    rcases hr.1 with hr | ⟨j, hge, hlt, hr⟩
    · rw [hr]
      exact value_le_one hq
    · rw [hr]
      by_cases hj : k ≤ j
      · exact hq.2 (Or.inr ⟨j, hj, hlt, rfl⟩)
      · -- The ranks from `l` to `k` hold one value.
        have hj' : s j = s k :=
          le_antisymm (hs.mono j k (by omega) hk) (heq ▸ hs.mono l j hge hlt)
        have hcand : candidate s m k ≤ candidate s m j := candidate_anti hs (by omega) hk hj'
        exact (hq.2 (Or.inr ⟨k, le_rfl, hk, rfl⟩)).trans hcand

theorem value_eq_value (hs : Sorted s m) (hk : k < m) (hl : l < m) (hkl : s k = s l)
    (hq : IsLeast (above s m k) q) (hr : IsLeast (above s m l) r) : q = r :=
  le_antisymm (value_le_value hs hk hkl.le hq hr) (value_le_value hs hl hkl.ge hr hq)

theorem candidate_le_iff (hm : 0 < m) (a : α) :
    candidate s m k ≤ a ↔ s k ≤ a * ((k + 1 : ℕ) : α) / m := by
  have hk : (0 : α) < (k : α) + 1 := by positivity
  have hm' : (0 : α) < m := by exact_mod_cast hm
  rw [candidate, div_le_iff₀ hk, le_div_iff₀ hm', Nat.cast_succ]

/-- The adjusted values within `a` are those of the ranks that the step-up rule
rejects. -/
theorem value_le_iff (hs : Sorted s m) (hk : k < m) (h : IsLeast (above s m k) q) (a : α) :
    q ≤ a ↔ k < rejected s m a := by
  have hm : 0 < m := by omega
  have hm' : (m : α) ≠ 0 := by
    have : (0 : α) < m := by exact_mod_cast hm
    exact this.ne'
  constructor
  · intro hqa
    rcases h.1 with hq | ⟨j, hge, hlt, hq⟩
    · have hshare : s (m - 1) ≤ a * m / m := by
        rw [mul_div_cancel_right₀ a hm']
        exact (hs.le_one (m - 1) (by omega)).trans (hq ▸ hqa)
      have hall : m ≤ rejected s m a := Nat.le_findGreatest le_rfl ⟨hm, hshare⟩
      omega
    · have hshare : s j ≤ a * ((j + 1 : ℕ) : α) / m := (candidate_le_iff hm a).mp (hq ▸ hqa)
      have hle : j + 1 ≤ rejected s m a := Nat.le_findGreatest hlt ⟨j.succ_pos, hshare⟩
      omega
  · intro hlt
    have hpos : rejected s m a ≠ 0 := by omega
    obtain ⟨_, hshare⟩ := Nat.findGreatest_of_ne_zero rfl hpos
    have hle : rejected s m a ≤ m := Nat.findGreatest_le m
    have hrank : rejected s m a - 1 + 1 = rejected s m a := by omega
    have hcand : candidate s m (rejected s m a - 1) ≤ a := by
      rw [candidate_le_iff hm, hrank]
      exact hshare
    exact (h.2 (Or.inr ⟨rejected s m a - 1, by omega, by omega, rfl⟩)).trans hcand

end StepUp
end IndieWorker
