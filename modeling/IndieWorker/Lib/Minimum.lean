/-
The least item of a list under a comparison function.

The items are read in order and the incumbent gives way only to one that comes
before it, so that among equals the first is kept.  Under a preorder the item
found precedes or ties with every other.  Where no two items of the list tie,
the order of the list does not matter.
-/
import Mathlib.Data.List.Basic
import Mathlib.Data.List.Perm.Basic

namespace IndieWorker
namespace Minimum

variable {α : Type} (cmp : α → α → Ordering)

/-- The incumbent, unless the challenger comes before it. -/
def keep (incumbent challenger : α) : α :=
  if cmp incumbent challenger = .gt then challenger else incumbent

/-- The first of the least items. -/
def minBy : List α → Option α
  | [] => none
  | x :: xs => some (xs.foldl (keep cmp) x)

@[simp]
theorem minBy_eq_none_iff {xs : List α} : minBy cmp xs = none ↔ xs = [] := by
  cases xs with
  | nil => exact iff_of_true rfl rfl
  | cons x xs => exact iff_of_false nofun nofun

theorem foldl_keep_mem (xs : List α) (x : α) : xs.foldl (keep cmp) x ∈ x :: xs := by
  induction xs generalizing x with
  | nil => exact List.mem_singleton_self x
  | cons y xs ih =>
    rw [List.foldl_cons]
    have hmem := ih (keep cmp x y)
    have hkeep : keep cmp x y = x ∨ keep cmp x y = y := by
      unfold keep
      by_cases h : cmp x y = .gt
      · exact Or.inr (if_pos h)
      · exact Or.inl (if_neg h)
    rcases hkeep with hx | hy
    · rw [hx] at hmem ⊢
      rcases List.mem_cons.mp hmem with hhead | htail
      · rw [hhead]
        exact List.mem_cons_self
      · exact List.mem_cons_of_mem x (List.mem_cons_of_mem y htail)
    · rw [hy] at hmem ⊢
      exact List.mem_cons_of_mem x hmem

theorem minBy_mem {xs : List α} {m : α} (h : minBy cmp xs = some m) : m ∈ xs := by
  cases xs with
  | nil => cases h
  | cons x xs =>
    cases h
    exact foldl_keep_mem cmp xs x

variable [Std.TransCmp cmp]

theorem self_isLE (x : α) : (cmp x x).isLE := by
  have hself : cmp x x = .eq := Std.ReflCmp.compare_self
  rw [hself]
  rfl

theorem keep_isLE (x y : α) : (cmp (keep cmp x y) x).isLE ∧ (cmp (keep cmp x y) y).isLE := by
  unfold keep
  by_cases h : cmp x y = .gt
  · rw [if_pos h]
    rw [Std.OrientedCmp.gt_iff_lt] at h
    exact ⟨by rw [h]; rfl, self_isLE cmp y⟩
  · rw [if_neg h]
    exact ⟨self_isLE cmp x, Ordering.ne_gt_iff_isLE.mp h⟩

/-- The induction is on the list, and the incumbent only ever moves down. -/
theorem foldl_keep_isLE (xs : List α) (x : α) :
    ∀ y ∈ x :: xs, (cmp (xs.foldl (keep cmp) x) y).isLE := by
  induction xs generalizing x with
  | nil =>
    intro y hy
    rw [List.mem_singleton.mp hy]
    exact self_isLE cmp x
  | cons z xs ih =>
    intro y hy
    rw [List.foldl_cons]
    have hkept := ih (keep cmp x z) _ List.mem_cons_self
    rcases List.mem_cons.mp hy with hx | hy
    · rw [hx]
      exact Std.TransCmp.isLE_trans hkept (keep_isLE cmp x z).1
    · rcases List.mem_cons.mp hy with hz | hy
      · rw [hz]
        exact Std.TransCmp.isLE_trans hkept (keep_isLE cmp x z).2
      · exact ih (keep cmp x z) y (List.mem_cons_of_mem _ hy)

/-- No item of the list comes before the one found. -/
theorem minBy_isLE {xs : List α} {m : α} (h : minBy cmp xs = some m) :
    ∀ y ∈ xs, (cmp m y).isLE := by
  cases xs with
  | nil => cases h
  | cons x xs =>
    cases h
    exact foldl_keep_isLE cmp xs x

/-- Two orders of one list have the same least item where only equals tie. -/
theorem minBy_perm {xs ys : List α} (hperm : xs.Perm ys)
    (hties : ∀ x ∈ xs, ∀ y ∈ xs, cmp x y = .eq → x = y) : minBy cmp xs = minBy cmp ys := by
  cases hx : minBy cmp xs with
  | none =>
    rw [minBy_eq_none_iff] at hx
    rw [hx] at hperm
    rw [List.nil_perm.mp hperm]
    rfl
  | some m =>
    cases hy : minBy cmp ys with
    | none =>
      rw [minBy_eq_none_iff] at hy
      rw [hy] at hperm
      rw [List.perm_nil.mp hperm] at hx
      cases hx
    | some n =>
      have hm : m ∈ xs := minBy_mem cmp hx
      have hn : n ∈ xs := hperm.mem_iff.mpr (minBy_mem cmp hy)
      have hmn : (cmp m n).isLE := minBy_isLE cmp hx n hn
      have hnm : (cmp n m).isLE := minBy_isLE cmp hy m (hperm.mem_iff.mp hm)
      rw [hties m hm n hn (Std.OrientedCmp.isLE_antisymm hmn hnm)]

end Minimum
end IndieWorker
