/-
Least squares by the normal equations.

A vector of coefficients whose residuals are orthogonal to every column of the
design beats any other by the square of the distance of the two fits.  With
independent columns no other vector does as well, and the normal equations have
one solution, whatever the units of the columns.
-/
import IndieWorker.Lib.GaussJordan
import Mathlib.Algebra.BigOperators.Fin
import Mathlib.Data.List.GetD
import Mathlib.LinearAlgebra.Matrix.DotProduct

namespace IndieWorker
namespace LeastSquares

open Matrix

/-! ## Sums over lists -/

section Sums

variable {α β K : Type} [AddCommMonoid K] {n : Nat}

theorem sum_map_eq_sum {l : List α} (hl : l.length = n) (d : α) (f : α → K) :
    (l.map f).sum = ∑ i : Fin n, f (l.getD i d) := by
  subst hl
  rw [← Fin.sum_univ_fun_getElem]
  refine Finset.sum_congr rfl fun i _ => ?_
  rw [List.getD_eq_getElem _ _ i.isLt]

theorem sum_map_zip_eq_sum {l : List α} {r : List β} (hl : l.length = n) (hr : r.length = n)
    (d : α) (e : β) (f : α × β → K) :
    ((l.zip r).map f).sum = ∑ i : Fin n, f (l.getD i d, r.getD i e) := by
  have hlength : (l.zip r).length = n := by
    rw [List.length_zip]
    omega
  rw [sum_map_eq_sum hlength (d, e)]
  refine Finset.sum_congr rfl fun i _ => ?_
  rw [List.getD_eq_getElem _ _ (by omega), List.getD_eq_getElem _ _ (by omega),
    List.getD_eq_getElem _ _ (by omega), List.getElem_zip]

end Sums

/-! ## Residuals -/

variable {K : Type} [Field K] {ι κ : Type} [Fintype κ]

section Residuals

variable (X : Matrix ι κ K) (y : ι → K)

def residual (b : κ → K) : ι → K := y - X *ᵥ b

/-- Only the zero combination of the columns vanishes. -/
def Independent : Prop := ∀ v, X *ᵥ v = 0 → v = 0

variable [Fintype ι]

/-- The residual sum of squares. -/
def rss (b : κ → K) : K := residual X y b ⬝ᵥ residual X y b

/-- The residuals are orthogonal to every column. -/
def NormalEquations (b : κ → K) : Prop := Xᵀ *ᵥ residual X y b = 0

end Residuals

variable {X : Matrix ι κ K} {y : ι → K} {b : κ → K}

/-- The units of the columns do not matter to their independence. -/
theorem independent_scale [DecidableEq κ] {d : κ → K} (hd : ∀ j, d j ≠ 0) :
    Independent (X * diagonal d) ↔ Independent X := by
  constructor
  · intro h v hv
    have hzero := h (fun j => v j / d j) (by
      rw [← Matrix.mulVec_mulVec, ← hv]
      congr 1
      funext j
      rw [Matrix.mulVec_diagonal, mul_div_cancel₀ _ (hd j)])
    funext j
    have hj := congrFun hzero j
    exact (div_eq_zero_iff.mp hj).resolve_right (hd j)
  · intro h v hv
    rw [← Matrix.mulVec_mulVec] at hv
    have hzero := h _ hv
    funext j
    have hj := congrFun hzero j
    rw [Matrix.mulVec_diagonal] at hj
    exact (mul_eq_zero.mp hj).resolve_left (hd j)

variable [Fintype ι]

theorem NormalEquations.column (h : NormalEquations X y b) (a : κ) :
    ∑ i, X i a * residual X y b i = 0 := congrFun h a

theorem normalEquations_iff : NormalEquations X y b ↔ (Xᵀ * X) *ᵥ b = Xᵀ *ᵥ y := by
  rw [NormalEquations, residual, Matrix.mulVec_sub, Matrix.mulVec_mulVec, sub_eq_zero, eq_comm]

/-- The fits of two vectors differ at a right angle to the residuals. -/
theorem rss_eq_add (h : NormalEquations X y b) (g : κ → K) :
    rss X y g = rss X y b + (X *ᵥ (g - b)) ⬝ᵥ (X *ᵥ (g - b)) := by
  have hsplit : residual X y g = residual X y b - X *ᵥ (g - b) := by
    rw [residual, residual, Matrix.mulVec_sub]
    abel
  have hcross : residual X y b ⬝ᵥ (X *ᵥ (g - b)) = 0 := by
    rw [Matrix.dotProduct_mulVec, ← Matrix.mulVec_transpose, h, zero_dotProduct]
  have hcross' : (X *ᵥ (g - b)) ⬝ᵥ residual X y b = 0 := by
    rw [dotProduct_comm, hcross]
  rw [rss, rss, hsplit, sub_dotProduct, dotProduct_sub, dotProduct_sub, hcross, hcross']
  ring

/-- A solution in one unit for each column is a solution in any other. -/
theorem normalEquations_scale [DecidableEq κ] (h : NormalEquations X y b) {d : κ → K}
    (hd : ∀ j, d j ≠ 0) : NormalEquations (X * diagonal d) y fun j => b j / d j := by
  have hfit : (X * diagonal d) *ᵥ (fun j => b j / d j) = X *ᵥ b := by
    rw [← Matrix.mulVec_mulVec]
    congr 1
    funext j
    rw [Matrix.mulVec_diagonal, mul_div_cancel₀ _ (hd j)]
  rw [NormalEquations, residual, hfit, Matrix.transpose_mul, ← Matrix.mulVec_mulVec]
  show (diagonal d)ᵀ *ᵥ (Xᵀ *ᵥ residual X y b) = 0
  rw [h, Matrix.mulVec_zero]

omit [Fintype ι] in
/-- Where the response moves along a combination of the columns, so does the solution. -/
theorem residual_move {e : κ → K} {u : ι → K} (he : X *ᵥ e = u) (s t : K) (b : κ → K) :
    residual X (s • y + t • u) (s • b + t • e) = s • residual X y b := by
  rw [residual, residual, Matrix.mulVec_add, Matrix.mulVec_smul, Matrix.mulVec_smul, he,
    add_sub_add_right_eq_sub, smul_sub]

theorem NormalEquations.move (h : NormalEquations X y b) {e : κ → K} {u : ι → K}
    (he : X *ᵥ e = u) (s t : K) : NormalEquations X (s • y + t • u) (s • b + t • e) := by
  rw [NormalEquations, residual_move he, Matrix.mulVec_smul]
  show s • (Xᵀ *ᵥ residual X y b) = 0
  rw [h, smul_zero]

theorem rss_move {e : κ → K} {u : ι → K} (he : X *ᵥ e = u) (s t : K) (b : κ → K) :
    rss X (s • y + t • u) (s • b + t • e) = s * s * rss X y b := by
  rw [rss, residual_move he, smul_dotProduct, dotProduct_smul, smul_eq_mul, smul_eq_mul, mul_assoc]
  rfl

/-! ## The minimum -/

variable [LinearOrder K] [IsStrictOrderedRing K]

/-- The Gram matrix sends no more to zero than the design does. -/
theorem gram_mulVec_eq_zero_iff {v : κ → K} : (Xᵀ * X) *ᵥ v = 0 ↔ X *ᵥ v = 0 := by
  constructor
  · intro h
    rw [← dotProduct_self_eq_zero]
    calc (X *ᵥ v) ⬝ᵥ (X *ᵥ v) = (Xᵀ *ᵥ (X *ᵥ v)) ⬝ᵥ v := by
          rw [Matrix.dotProduct_mulVec, Matrix.mulVec_transpose]
      _ = 0 := by rw [Matrix.mulVec_mulVec, h, zero_dotProduct]
  · intro h
    rw [← Matrix.mulVec_mulVec, h, Matrix.mulVec_zero]

theorem rss_nonneg : 0 ≤ rss X y b := Finset.sum_nonneg fun _ _ => mul_self_nonneg _

theorem rss_le (h : NormalEquations X y b) (g : κ → K) : rss X y b ≤ rss X y g := by
  rw [rss_eq_add h g]
  exact le_add_of_nonneg_right (Finset.sum_nonneg fun _ _ => mul_self_nonneg _)

/-- The minimizer is unique. -/
theorem rss_lt (hindependent : Independent X) (h : NormalEquations X y b) {g : κ → K}
    (hne : g ≠ b) : rss X y b < rss X y g := by
  refine lt_of_le_of_ne (rss_le h g) fun heq => ?_
  rw [rss_eq_add h g, left_eq_add, dotProduct_self_eq_zero] at heq
  exact hne (sub_eq_zero.mp (hindependent _ heq))

theorem normalEquations_unique (hindependent : Independent X) {g : κ → K}
    (h : NormalEquations X y b) (hg : NormalEquations X y g) : g = b := by
  by_contra hne
  exact absurd (rss_lt hindependent h hne) (not_lt.mpr (rss_le hg b))

/-! ## Solving the equations -/

variable {n : Nat} {D : Matrix ι (Fin n) K}

theorem forall_pivot_gram_ne_zero_iff :
    (∀ c, GaussJordan.pivot (Dᵀ * D) c ≠ 0) ↔ Independent D := by
  rw [GaussJordan.forall_pivot_ne_zero_iff, Independent]
  exact forall_congr' fun v => by rw [gram_mulVec_eq_zero_iff]

/-- The inverse of the Gram matrix gives the solution. -/
theorem normalEquations_of_invert {tolerance : K} (ht : 0 < tolerance)
    {N : Matrix (Fin n) (Fin n) K} (h : GaussJordan.invert tolerance (Dᵀ * D) = some N) :
    NormalEquations D y (N *ᵥ (Dᵀ *ᵥ y)) := by
  rw [normalEquations_iff, Matrix.mulVec_mulVec, (GaussJordan.invert_inverse ht h).2,
    Matrix.one_mulVec]

theorem independent_of_invert {tolerance : K} (ht : 0 < tolerance)
    {N : Matrix (Fin n) (Fin n) K} (h : GaussJordan.invert tolerance (Dᵀ * D) = some N) :
    Independent D := by
  rw [← forall_pivot_gram_ne_zero_iff]
  intro c
  exact abs_pos.mp (ht.trans_le ((GaussJordan.invert_eq_some_iff.mp h).2 c))

end LeastSquares
end IndieWorker
