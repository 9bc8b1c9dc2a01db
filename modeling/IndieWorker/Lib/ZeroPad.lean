/-
Sums over pairs of vectors that are padded with zeros.

A sum of `f x y` over the pairs of two vectors of one width does not see a tail of
zeros when `f 0 0 = 0`.
-/
import Mathlib.Algebra.BigOperators.Group.List.Basic
import Mathlib.Data.List.Zip

namespace IndieWorker
namespace ZeroPad

variable {α : Type} [AddMonoid α]

/-- The sum of `f` over the pairs of two vectors. -/
def pairSum (f : α → α → α) (a b : List α) : α := ((a.zip b).map fun x => f x.1 x.2).sum

/-- The vector with zeros up to a width. -/
def pad (width : Nat) (a : List α) : List α := a ++ List.replicate (width - a.length) 0

theorem length_pad {width : Nat} {a : List α} (h : a.length ≤ width) :
    (pad width a).length = width := by
  rw [pad, List.length_append, List.length_replicate]
  omega

theorem take_pad (width : Nat) (a : List α) : (pad width a).take a.length = a := by
  rw [pad, List.take_left]

theorem pairSum_replicate_zero {f : α → α → α} (hf : f 0 0 = 0) (n : Nat) :
    pairSum f (List.replicate n 0) (List.replicate n 0) = 0 := by
  have hzeros : pairSum f (List.replicate n 0) (List.replicate n 0) =
      (List.replicate n (f 0 0)).sum := by
    rw [pairSum, List.zip_replicate', List.map_replicate]
  rw [hzeros, hf, List.sum_replicate, nsmul_zero]

/-- Padding two vectors of one width does not change a sum over their pairs. -/
theorem pairSum_pad {f : α → α → α} (hf : f 0 0 = 0) {a b : List α} (h : a.length = b.length)
    (width : Nat) : pairSum f (pad width a) (pad width b) = pairSum f a b := by
  have hsplit : pairSum f (pad width a) (pad width b) =
      pairSum f a b + pairSum f (List.replicate (width - a.length) 0)
        (List.replicate (width - b.length) 0) := by
    rw [pairSum, pad, pad, List.zip_append h, List.map_append, List.sum_append]
    rfl
  rw [hsplit, h, pairSum_replicate_zero hf, add_zero]

/-- Exchanging the vectors exchanges the arguments. -/
theorem pairSum_comm {f : α → α → α} (hf : ∀ x y, f x y = f y x) (a b : List α) :
    pairSum f a b = pairSum f b a := by
  rw [pairSum, pairSum, ← List.zip_swap, List.map_map]
  congr 2
  ext x
  exact hf _ _

end ZeroPad
end IndieWorker
