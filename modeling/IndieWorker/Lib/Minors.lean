/-
The pivots of an elimination as quotients of minors.

The rows of a matrix are taken in an order in which each leading minor is as large
as it can be after those before it.  That is the order in which an elimination with
partial pivoting takes them, and its pivots are, up to their signs, the quotients of
the leading minors.
-/
import IndieWorker.Lib.GaussJordan

namespace IndieWorker
namespace GaussJordan

open Matrix

variable {K : Type} [Field K] [LinearOrder K] {n : Nat}

/-! ## Leading minors -/

section Minors

variable (M : Matrix (Fin n) (Fin n) K)

/-- The first `k` columns, completed by the unit columns of the rows that an order
puts after its first `k`. -/
def completed (order : Equiv.Perm (Fin n)) (k : Nat) : Matrix (Fin n) (Fin n) K := fun i j =>
  if j.val < k then M i j else if i = order j then 1 else 0

/-- Up to its sign, the minor of the first `k` rows of an order and the first `k`
columns. -/
def minor (order : Equiv.Perm (Fin n)) (k : Nat) : K := (completed M order k).det

/-- The order with the largest minors: the row in place `k` makes the minor of the
first `k + 1` rows largest. -/
def greedyOrder : Nat → Equiv.Perm (Fin n)
  | 0 => 1
  | k + 1 =>
    if h : k < n then
      let c : Fin n := ⟨k, h⟩
      greedyOrder k * Equiv.swap c
        (lastLargest (fun i => |minor M (greedyOrder k * Equiv.swap c i) (k + 1)|) c)
    else greedyOrder k

/-- The order in which the elimination takes the rows. -/
def rowOrder : Nat → Equiv.Perm (Fin n)
  | 0 => 1
  | k + 1 =>
    if h : k < n then
      rowOrder k * Equiv.swap ⟨k, h⟩ (pivotRow (state M k).1 ⟨k, h⟩)
    else rowOrder k

end Minors

/-! ## What the elimination records -/

section Records

variable {M L R : Matrix (Fin n) (Fin n) K} {order : Equiv.Perm (Fin n)} {c p : Fin n}

/-- The columns of the rows not taken yet are those of the identity. -/
def Records (order : Equiv.Perm (Fin n)) (k : Nat) (R : Matrix (Fin n) (Fin n) K) : Prop :=
  ∀ j : Fin n, k ≤ j.val → ∀ i, R i (order j) = if i = j then 1 else 0

theorem le_swap {j : Fin n} (hj : c < j) : c ≤ Equiv.swap c p j := by
  by_cases hjp : j = p
  · rw [hjp, Equiv.swap_apply_right]
  · rw [Equiv.swap_apply_of_ne_of_ne hj.ne' hjp]
    exact hj.le

theorem records_turn (h : Records order c.val R) :
    Records (order * Equiv.swap c p) (c.val + 1) (turn L c p R) := by
  intro j hj i
  have hcj : c < j := hj
  have hcolumn := h (Equiv.swap c p j) (le_swap hcj)
  have hpivot : R p (order (Equiv.swap c p j)) = 0 := by
    rw [hcolumn, if_neg]
    intro heq
    rw [eq_comm, Equiv.swap_apply_eq_iff, Equiv.swap_apply_right] at heq
    exact hcj.ne' heq
  rw [Equiv.Perm.mul_apply]
  by_cases hi : i = c
  · rw [hi, turn_self, hpivot, zero_div, if_neg hcj.ne]
  · rw [turn_other hi, hpivot, zero_div, mul_zero, sub_zero, hcolumn]
    simp only [EmbeddingLike.apply_eq_iff_eq]

theorem records_state (k : Nat) : Records (rowOrder M k) k (state M k).2 := by
  induction k with
  | zero =>
    intro j _ i
    show (1 : Matrix (Fin n) (Fin n) K) i j = _
    exact Matrix.one_apply
  | succ k ih =>
    rw [rowOrder, state]
    split
    · next hk => exact records_turn (c := ⟨k, hk⟩) ih
    · exact fun j hj => ih j (by omega)

end Records

/-! ## Pivots and minors -/

section Quotients

variable {M : Matrix (Fin n) (Fin n) K}

theorem state_mul_apply (k : Nat) (i j : Fin n) :
    ∑ r, (state M k).2 i r * M r j = (state M k).1 i j := by
  rw [← state_mul, Matrix.mul_apply]

/-- What was recorded undoes the columns that were taken. -/
theorem state_mul_completed {k : Nat} (hunit : UnitColumns k (state M k).1) :
    (state M k).2 * completed M (rowOrder M k) k = 1 := by
  ext i j
  rw [Matrix.mul_apply, Matrix.one_apply]
  by_cases hj : j.val < k
  · simp only [completed, if_pos hj]
    rw [state_mul_apply, hunit j hj]
  · simp only [completed, if_neg hj, mul_ite, mul_one, mul_zero, Finset.sum_ite_eq',
      Finset.mem_univ, if_true]
    exact records_state k j (by omega) i

/-- With one more row, what is left is the column of the pivot. -/
theorem state_mul_completed_succ {c i : Fin n} (hunit : UnitColumns c.val (state M c).1)
    (hi : c ≤ i) :
    (state M c).2 * completed M (rowOrder M c * Equiv.swap c i) (c.val + 1) =
      ((1 : Matrix (Fin n) (Fin n) K).updateCol c
        fun r => (state M c).1 (Equiv.swap c i r) c).submatrix (Equiv.swap c i) id := by
  ext r j
  rw [Matrix.mul_apply, Matrix.submatrix_apply, id, Matrix.updateCol_apply]
  rcases lt_trichotomy j c with hlt | heq | hgt
  · have hswap : Equiv.swap c i j = j :=
      Equiv.swap_apply_of_ne_of_ne hlt.ne (hlt.trans_le hi).ne
    have hj : j.val < c.val + 1 := Nat.lt_succ_of_lt hlt
    simp only [completed, if_pos hj]
    rw [state_mul_apply, hunit j hlt, if_neg hlt.ne, Matrix.one_apply]
    simp only [Equiv.swap_apply_eq_iff, hswap]
  · subst heq
    simp only [completed, if_pos (Nat.lt_succ_self _)]
    rw [state_mul_apply, if_true, Equiv.swap_apply_self]
  · have hj : ¬j.val < c.val + 1 := Nat.not_lt.mpr hgt
    simp only [completed, if_neg hj, mul_ite, mul_one, mul_zero, Finset.sum_ite_eq',
      Finset.mem_univ, if_true]
    rw [if_neg hgt.ne', Matrix.one_apply]
    simp only [Equiv.swap_apply_eq_iff]
    exact records_state c.val _ (le_swap hgt) r

theorem minor_ne_zero {k : Nat} (hunit : UnitColumns k (state M k).1) :
    minor M (rowOrder M k) k ≠ 0 := by
  have hdet := congrArg Matrix.det (state_mul_completed hunit)
  rw [Matrix.det_mul, Matrix.det_one] at hdet
  exact right_ne_zero_of_mul_eq_one hdet

theorem rowOrder_succ (c : Fin n) :
    rowOrder M (c.val + 1) = rowOrder M c * Equiv.swap c (pivotRow (state M c).1 c) := by
  rw [rowOrder, dif_pos c.isLt]

variable [IsStrictOrderedRing K]

/-- A candidate for the pivot is the quotient of two minors. -/
theorem abs_mul_minor {c i : Fin n} (hunit : UnitColumns c.val (state M c).1) (hi : c ≤ i) :
    |(state M c).1 i c| * |minor M (rowOrder M c) c| =
      |minor M (rowOrder M c * Equiv.swap c i) (c.val + 1)| := by
  have hdone := congrArg Matrix.det (state_mul_completed hunit)
  have hnext := congrArg Matrix.det (state_mul_completed_succ hunit hi)
  rw [Matrix.det_mul, Matrix.det_one] at hdone
  rw [Matrix.det_mul, Matrix.det_permute, ← Matrix.cramer_apply, Matrix.cramer_one,
    Module.End.one_apply, Equiv.swap_apply_left] at hnext
  have hsign : |(((Equiv.Perm.sign (Equiv.swap c i) : ℤˣ) : ℤ) : K)| = 1 := by
    rcases Int.units_eq_one_or (Equiv.Perm.sign (Equiv.swap c i)) with h | h
    · rw [h]
      simp
    · rw [h]
      simp
  have habs := congrArg abs hnext
  rw [abs_mul, abs_mul, hsign, one_mul] at habs
  have hone := congrArg abs hdone
  rw [abs_mul, abs_one] at hone
  calc |(state M c).1 i c| * |minor M (rowOrder M c) c|
      = |(state M c).2.det| * |minor M (rowOrder M c * Equiv.swap c i) (c.val + 1)| *
          |minor M (rowOrder M c) c| := by rw [← habs]; rfl
    _ = |(state M c).2.det| * |minor M (rowOrder M c) c| *
          |minor M (rowOrder M c * Equiv.swap c i) (c.val + 1)| := mul_right_comm _ _ _
    _ = |minor M (rowOrder M c * Equiv.swap c i) (c.val + 1)| := by
        rw [show |(state M c).2.det| * |minor M (rowOrder M c) c| = 1 from hone, one_mul]

/-- The elimination takes the rows in the greedy order, as long as it finds pivots. -/
theorem rowOrder_eq {k : Nat} (h : ∀ c : Fin n, c.val + 1 < k → pivot M c ≠ 0) :
    rowOrder M k = greedyOrder M k := by
  induction k with
  | zero => rfl
  | succ k ih =>
    have hsame := ih fun c hc => h c (Nat.lt_succ_of_lt hc)
    have hunit := (state_of_pivots (k := k) fun c hc => h c (Nat.succ_lt_succ hc)).1
    have hpos : 0 < |minor M (rowOrder M k) k| := abs_pos.mpr (minor_ne_zero hunit)
    rw [rowOrder, greedyOrder, ← hsame]
    split
    · next hk =>
      have hquotient : ∀ i : Fin n, ⟨k, hk⟩ ≤ i →
          |minor M (rowOrder M k * Equiv.swap ⟨k, hk⟩ i) (k + 1)| =
            |(state M k).1 i ⟨k, hk⟩| * |minor M (rowOrder M k) k| :=
        fun i hi => (abs_mul_minor (c := ⟨k, hk⟩) hunit hi).symm
      have hpick : pivotRow (state M k).1 ⟨k, hk⟩ =
          lastLargest (fun i => |minor M (rowOrder M k * Equiv.swap ⟨k, hk⟩ i) (k + 1)|)
            ⟨k, hk⟩ := by
        apply lastLargest_congr
        intro i j hi hj
        rw [hquotient i hi, hquotient j hj]
        exact (mul_le_mul_iff_left₀ hpos).symm
      rw [hpick]
    · rfl

/-- The minors of the greedy order grow by the pivots. -/
theorem abs_pivot_mul_minor {c : Fin n} (h : ∀ d : Fin n, d < c → pivot M d ≠ 0) :
    |pivot M c| * |minor M (greedyOrder M c) c| =
      |minor M (greedyOrder M (c.val + 1)) (c.val + 1)| := by
  have hunit := (state_of_pivots (k := c.val) fun d hd => h d hd).1
  have hbefore : ∀ d : Fin n, d.val + 1 < c.val → pivot M d ≠ 0 :=
    fun d hd => h d (Nat.lt_of_succ_lt hd)
  have hnext : ∀ d : Fin n, d.val + 1 < c.val + 1 → pivot M d ≠ 0 :=
    fun d hd => h d (Nat.lt_of_succ_lt_succ hd)
  rw [← rowOrder_eq hbefore, ← rowOrder_eq hnext, rowOrder_succ]
  exact abs_mul_minor hunit pivotRow_spec.1

/-- The pivots reach a bound exactly when the minors of the greedy order grow by it. -/
theorem forall_pivot_iff {tolerance : K} (ht : 0 < tolerance) :
    (∀ c, tolerance ≤ |pivot M c|) ↔ ∀ c : Fin n,
      tolerance * |minor M (greedyOrder M c) c| ≤
        |minor M (greedyOrder M (c.val + 1)) (c.val + 1)| := by
  have hgrow : ∀ c : Fin n, (∀ d : Fin n, d < c → tolerance ≤ |pivot M d|) →
      (tolerance ≤ |pivot M c| ↔ tolerance * |minor M (greedyOrder M c) c| ≤
        |minor M (greedyOrder M (c.val + 1)) (c.val + 1)|) := by
    intro c hreach
    have hne : ∀ d : Fin n, d < c → pivot M d ≠ 0 :=
      fun d hd => abs_pos.mp (ht.trans_le (hreach d hd))
    have hbefore : ∀ d : Fin n, d.val + 1 < c.val → pivot M d ≠ 0 :=
      fun d hd => hne d (Nat.lt_of_succ_lt hd)
    have hunit := (state_of_pivots (k := c.val) fun d hd => hne d hd).1
    have hpos := abs_pos.mpr (minor_ne_zero hunit)
    rw [rowOrder_eq hbefore] at hpos
    rw [← abs_pivot_mul_minor hne]
    exact (mul_le_mul_iff_left₀ hpos).symm
  constructor
  · exact fun h c => (hgrow c fun d _ => h d).mp (h c)
  · intro h c
    induction c using WellFoundedLT.induction with
    | _ c ih => exact (hgrow c ih).mpr (h c)

end Quotients

end GaussJordan
end IndieWorker
