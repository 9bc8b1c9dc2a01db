/-
Finite binary64 numbers as the rationals they denote.

A finite double is a 53-bit integer times a power of two within the exponent
range; the two zeros are one value here.  An integer is converted to the nearest
double, ties to the even significand.
-/
import Mathlib.Algebra.Order.Field.Rat
import Mathlib.Algebra.Order.Ring.Abs
import Mathlib.Data.Nat.Log
import Mathlib.Tactic.Linarith
import Mathlib.Tactic.NormNum
import Mathlib.Tactic.Positivity
import Mathlib.Tactic.Ring

namespace IndieWorker

/-- `q` is the value of a finite binary64 number. -/
def Representable (q : ℚ) : Prop :=
  ∃ m e : ℤ, |m| < 2 ^ 53 ∧ -1074 ≤ e ∧ e ≤ 971 ∧ q = m * 2 ^ e

/-- A finite binary64 number. -/
structure Binary64 where
  value : ℚ
  representable : Representable value
  deriving DecidableEq

theorem representable_neg {q : ℚ} (h : Representable q) : Representable (-q) := by
  obtain ⟨m, e, hm, hlo, hhi, rfl⟩ := h
  exact ⟨-m, e, by rwa [abs_neg], hlo, hhi, by push_cast; ring⟩

theorem representable_natCast_mul {m k : ℕ} (hm : m ≤ 2 ^ 53) (hk : k ≤ 970) :
    Representable ((m * 2 ^ k : ℕ) : ℚ) := by
  by_cases hmax : m = 2 ^ 53
  · subst hmax
    refine ⟨2 ^ 52, k + 1, by norm_num, by omega, by omega, ?_⟩
    rw [zpow_add₀ two_ne_zero, zpow_natCast]
    push_cast
    ring
  · refine ⟨m, k, ?_, by omega, by omega, ?_⟩
    · rw [Nat.abs_cast]
      have : m < 2 ^ 53 := by omega
      exact_mod_cast this
    · rw [zpow_natCast]
      push_cast
      ring

theorem representable_natCast {n : ℕ} (hn : n ≤ 2 ^ 53) : Representable (n : ℚ) := by
  have h := representable_natCast_mul (k := 0) hn (by decide)
  rwa [pow_zero, mul_one] at h

/-! ## Rounding an integer -/

/-- How many low bits of `n` a 53-bit significand has no room for. -/
def droppedBits (n : ℕ) : ℕ := n.log2 - 52

/-- The multiple of the last kept bit nearest to `n`, ties to an even multiple. -/
def roundNat (n : ℕ) : ℕ :=
  let unit := 2 ^ droppedBits n
  let kept := n / unit
  let rest := n % unit
  if unit < 2 * rest ∨ (2 * rest = unit ∧ kept % 2 = 1) then (kept + 1) * unit
  else kept * unit

theorem lt_two_pow_dropped (n : ℕ) : n < 2 ^ (53 + droppedBits n) := by
  have hlog : n < 2 ^ (n.log2 + 1) := Nat.lt_log2_self
  exact hlog.trans_le (Nat.pow_le_pow_right (by omega) (by rw [droppedBits]; omega))

theorem kept_lt (n : ℕ) : n / 2 ^ droppedBits n < 2 ^ 53 := by
  rw [Nat.div_lt_iff_lt_mul (Nat.two_pow_pos _), ← Nat.pow_add]
  exact lt_two_pow_dropped n

theorem representable_roundNat {n : ℕ} (h : n < 2 ^ 64) :
    Representable (roundNat n : ℚ) := by
  have hdropped : droppedBits n ≤ 970 := by
    by_cases hn : n = 0
    · subst hn
      decide
    · have := (Nat.log2_lt hn).mpr h
      rw [droppedBits]
      omega
  have hkept := kept_lt n
  unfold roundNat
  dsimp only
  split
  · exact representable_natCast_mul (by omega) hdropped
  · exact representable_natCast_mul (by omega) hdropped

/-- A number that needs no rounding is its own double. -/
theorem roundNat_of_representable {n : ℕ} (h : Representable (n : ℚ)) : roundNat n = n := by
  have hdvd : 2 ^ droppedBits n ∣ n := by
    obtain ⟨m, e, hm, -, -, heq⟩ := h
    by_cases hzero : droppedBits n = 0
    · rw [hzero]
      exact one_dvd n
    have hpos : (0 : ℚ) < 2 ^ e := zpow_pos two_pos e
    have hlog : n.log2 = 52 + droppedBits n := by
      rw [droppedBits] at hzero ⊢
      omega
    have hlow : 2 ^ (52 + droppedBits n) ≤ n := by
      rw [← hlog]
      refine Nat.log2_self_le fun hn => ?_
      rw [hn] at hzero
      exact hzero (by decide)
    have hlowQ : (2 : ℚ) ^ (52 + droppedBits n) ≤ n := by exact_mod_cast hlow
    have hmQ : (m : ℚ) < 2 ^ 53 := by exact_mod_cast (abs_lt.mp hm).2
    -- a smaller exponent could not reach the top bit of `n`
    have hexp : (droppedBits n : ℤ) ≤ e := by
      by_contra hlt
      have hle : (2 : ℚ) ^ e ≤ 2 ^ ((droppedBits n : ℤ) - 1) :=
        zpow_le_zpow_right₀ one_le_two (by omega)
      have hsplit : (2 : ℚ) ^ 53 * 2 ^ ((droppedBits n : ℤ) - 1) = 2 ^ (52 + droppedBits n) := by
        rw [← zpow_natCast, ← zpow_natCast, ← zpow_add₀ two_ne_zero]
        congr 1
        push_cast
        ring
      have hupper : (m : ℚ) * 2 ^ e < 2 ^ 53 * 2 ^ e := mul_lt_mul_of_pos_right hmQ hpos
      have hstep : (2 : ℚ) ^ 53 * 2 ^ e ≤ 2 ^ 53 * 2 ^ ((droppedBits n : ℤ) - 1) :=
        mul_le_mul_of_nonneg_left hle (by positivity)
      rw [heq] at hlowQ
      linarith
    obtain ⟨j, rfl⟩ : ∃ j : ℕ, e = droppedBits n + j := ⟨(e - droppedBits n).toNat, by omega⟩
    have hint : (n : ℤ) = 2 ^ droppedBits n * (m * 2 ^ j) := by
      rw [zpow_add₀ two_ne_zero, zpow_natCast, zpow_natCast] at heq
      have : (n : ℚ) = ((2 ^ droppedBits n * (m * 2 ^ j) : ℤ) : ℚ) := by
        rw [heq]
        push_cast
        ring
      exact_mod_cast this
    have : ((2 ^ droppedBits n : ℕ) : ℤ) ∣ n := ⟨m * 2 ^ j, by exact_mod_cast hint⟩
    exact_mod_cast this
  unfold roundNat
  dsimp only
  rw [Nat.mod_eq_zero_of_dvd hdvd, if_neg, Nat.div_mul_cancel hdvd]
  have := Nat.two_pow_pos (droppedBits n)
  omega

theorem kept_le_roundNat (n : ℕ) :
    n / 2 ^ droppedBits n * 2 ^ droppedBits n ≤ roundNat n := by
  unfold roundNat
  dsimp only
  split
  · exact Nat.mul_le_mul_right _ (Nat.le_succ _)
  · exact le_rfl

theorem roundNat_le_kept (n : ℕ) :
    roundNat n ≤ (n / 2 ^ droppedBits n + 1) * 2 ^ droppedBits n := by
  unfold roundNat
  dsimp only
  split
  · exact le_rfl
  · exact Nat.mul_le_mul_right _ (Nat.le_succ _)

theorem two_pow_le_kept {n : ℕ} (h : 2 ^ 53 ≤ n) :
    2 ^ (52 + droppedBits n) ≤ n / 2 ^ droppedBits n * 2 ^ droppedBits n := by
  have hne : n ≠ 0 := by
    have := Nat.two_pow_pos 53
    omega
  have hlog : 53 ≤ n.log2 := (Nat.le_log2 hne).mpr h
  have htop : 52 + droppedBits n = n.log2 := by
    rw [droppedBits]
    omega
  rw [Nat.pow_add]
  apply Nat.mul_le_mul_right
  rw [Nat.le_div_iff_mul_le (Nat.two_pow_pos _), ← Nat.pow_add, htop]
  exact Nat.log2_self_le hne

/-- Rounding keeps the order. -/
theorem roundNat_mono {m n : ℕ} (h : m ≤ n) : roundNat m ≤ roundNat n := by
  have hlog : m.log2 ≤ n.log2 := by
    by_cases hm : m = 0
    · rw [hm, Nat.log2_zero]
      exact Nat.zero_le _
    · exact (Nat.le_log2 (by omega)).mpr ((Nat.log2_self_le hm).trans h)
  by_cases hsame : droppedBits m = droppedBits n
  · have hkept : m / 2 ^ droppedBits m ≤ n / 2 ^ droppedBits n := by
      rw [hsame]
      exact Nat.div_le_div_right h
    by_cases hlt : m / 2 ^ droppedBits m < n / 2 ^ droppedBits n
    · calc roundNat m ≤ (m / 2 ^ droppedBits m + 1) * 2 ^ droppedBits m := roundNat_le_kept m
        _ ≤ n / 2 ^ droppedBits n * 2 ^ droppedBits n := by
          rw [← hsame] at hlt ⊢
          exact Nat.mul_le_mul_right _ hlt
        _ ≤ roundNat n := kept_le_roundNat n
    -- in one unit the remainders decide
    · have heq : m / 2 ^ droppedBits m = n / 2 ^ droppedBits n := by omega
      have hm := Nat.div_add_mod m (2 ^ droppedBits m)
      have hn := Nat.div_add_mod n (2 ^ droppedBits n)
      rw [hsame] at heq hm
      rw [heq] at hm
      have hrest : m % 2 ^ droppedBits n ≤ n % 2 ^ droppedBits n := by omega
      have hup : (n / 2 ^ droppedBits n) * 2 ^ droppedBits n ≤
          (n / 2 ^ droppedBits n + 1) * 2 ^ droppedBits n :=
        Nat.mul_le_mul_right _ (Nat.le_succ _)
      unfold roundNat
      dsimp only
      rw [hsame, heq]
      split <;> split <;> omega
  -- a number with fewer bits stays below the lowest of those with more
  · have hmore : droppedBits m + 1 ≤ droppedBits n := by
      rw [droppedBits, droppedBits] at hsame ⊢
      omega
    have hbig : 2 ^ 53 ≤ n := by
      have hne : n ≠ 0 := by
        intro hzero
        rw [hzero] at hmore
        exact absurd hmore (Nat.not_succ_le_zero _)
      refine (Nat.le_log2 hne).mp ?_
      rw [droppedBits, droppedBits] at hmore
      omega
    calc roundNat m ≤ (m / 2 ^ droppedBits m + 1) * 2 ^ droppedBits m := roundNat_le_kept m
      _ ≤ 2 ^ 53 * 2 ^ droppedBits m := Nat.mul_le_mul_right _ (kept_lt m)
      _ = 2 ^ (53 + droppedBits m) := by rw [Nat.pow_add]
      _ ≤ 2 ^ (52 + droppedBits n) := Nat.pow_le_pow_right (by omega) (by omega)
      _ ≤ n / 2 ^ droppedBits n * 2 ^ droppedBits n := two_pow_le_kept hbig
      _ ≤ roundNat n := kept_le_roundNat n

/-- Rounding does not cross the last of the consecutive integers. -/
theorem two_pow_le_roundNat {n : ℕ} (h : 2 ^ 53 ≤ n) : 2 ^ 53 ≤ roundNat n := by
  have hself : roundNat (2 ^ 53) = 2 ^ 53 :=
    roundNat_of_representable (representable_natCast le_rfl)
  rw [← hself]
  exact roundNat_mono h

theorem roundNat_eq_or (n : ℕ) : roundNat n = n ∨ 2 ^ 53 ≤ n ∧ 2 ^ 53 ≤ roundNat n := by
  by_cases h : n ≤ 2 ^ 53
  · exact Or.inl (roundNat_of_representable (representable_natCast h))
  · exact Or.inr ⟨by omega, two_pow_le_roundNat (by omega)⟩

/-- No other number shares the double of one below the last consecutive integer. -/
theorem eq_of_roundNat_eq {m n : ℕ} (hm : m < 2 ^ 53) (h : roundNat m = roundNat n) : m = n := by
  have hself : roundNat m = m := roundNat_of_representable (representable_natCast hm.le)
  rcases roundNat_eq_or n with heq | hbig
  · omega
  · omega

theorem roundNat_ne_zero {n : ℕ} (h : n ≠ 0) : roundNat n ≠ 0 := by
  intro hzero
  have hround : roundNat 0 = roundNat n := by
    rw [hzero]
    rfl
  exact h (eq_of_roundNat_eq (by decide) hround).symm

/-- A length compares with a rounded bound as with the bound. -/
theorem roundNat_le_iff {n length : ℕ} (h : length < 2 ^ 53) :
    roundNat n ≤ length ↔ n ≤ length := by
  rcases roundNat_eq_or n with heq | ⟨hn, hround⟩
  · rw [heq]
  · omega

theorem le_roundNat_iff {n length : ℕ} (h : length < 2 ^ 53) :
    length ≤ roundNat n ↔ length ≤ n := by
  rcases roundNat_eq_or n with heq | ⟨hn, hround⟩
  · rw [heq]
  · omega

namespace Binary64

/-- `n as f64`. -/
def ofNat (n : ℕ) (h : n < 2 ^ 64) : Binary64 := ⟨roundNat n, representable_roundNat h⟩

def neg (x : Binary64) : Binary64 := ⟨-x.value, representable_neg x.representable⟩

@[simp] theorem ofNat_value (n : ℕ) (h : n < 2 ^ 64) : (ofNat n h).value = roundNat n := rfl

@[simp] theorem neg_value (x : Binary64) : x.neg.value = -x.value := rfl

end Binary64
end IndieWorker
