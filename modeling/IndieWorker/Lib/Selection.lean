/-
Taking the least item of a list again and again.

Each turn takes out the item `minBy` finds.  The items taken come out in order,
nothing that is left comes before one that was taken, and together they are the
list.  Where no two items of the list tie, the order of the list does not matter.
-/
import IndieWorker.Lib.Minimum
import Mathlib.Data.List.Perm.Basic

namespace IndieWorker
namespace Minimum

variable {α : Type} [DecidableEq α] (cmp : α → α → Ordering)

/-- What `n` turns take out. -/
def taken : Nat → List α → List α
  | 0, _ => []
  | n + 1, xs =>
    match minBy cmp xs with
    | none => []
    | some m => m :: taken n (xs.erase m)

/-- What `n` turns leave. -/
def left : Nat → List α → List α
  | 0, xs => xs
  | n + 1, xs =>
    match minBy cmp xs with
    | none => []
    | some m => left n (xs.erase m)

variable {cmp}

theorem taken_nil (n : Nat) : taken cmp n [] = [] := by
  cases n <;> rfl

theorem taken_succ {n : Nat} {xs : List α} {m : α} (h : minBy cmp xs = some m) :
    taken cmp (n + 1) xs = m :: taken cmp n (xs.erase m) := by
  rw [taken, h]

theorem left_succ {n : Nat} {xs : List α} {m : α} (h : minBy cmp xs = some m) :
    left cmp (n + 1) xs = left cmp n (xs.erase m) := by
  rw [left, h]

/-- Nothing is lost and nothing is taken twice. -/
theorem taken_append_left (n : Nat) (xs : List α) :
    (taken cmp n xs ++ left cmp n xs).Perm xs := by
  induction n generalizing xs with
  | zero => exact List.Perm.refl xs
  | succ n ih =>
    rcases hmin : minBy cmp xs with _ | m
    · rw [(minBy_eq_none_iff cmp).mp hmin]
      exact List.Perm.refl []
    · rw [taken_succ hmin, left_succ hmin]
      exact ((ih (xs.erase m)).cons m).trans (List.perm_cons_erase (minBy_mem cmp hmin)).symm

theorem length_taken (n : Nat) (xs : List α) : (taken cmp n xs).length = min n xs.length := by
  induction n generalizing xs with
  | zero => exact (Nat.zero_min _).symm
  | succ n ih =>
    rcases hmin : minBy cmp xs with _ | m
    · rw [(minBy_eq_none_iff cmp).mp hmin]
      rfl
    · have hmem := minBy_mem cmp hmin
      have hpos := List.length_pos_of_mem hmem
      rw [taken_succ hmin, List.length_cons, ih, List.length_erase_of_mem hmem]
      omega

theorem mem_of_mem_taken {n : Nat} {xs : List α} {x : α} (h : x ∈ taken cmp n xs) : x ∈ xs :=
  (taken_append_left n xs).subset (List.mem_append_left _ h)

theorem mem_of_mem_left {n : Nat} {xs : List α} {x : α} (h : x ∈ left cmp n xs) : x ∈ xs :=
  (taken_append_left n xs).subset (List.mem_append_right _ h)

variable [Std.TransCmp cmp]

/-- The items come out in order, before all that is left. -/
theorem taken_sorted (n : Nat) (xs : List α) :
    (taken cmp n xs).Pairwise (fun x y => (cmp x y).isLE) ∧
      ∀ x ∈ taken cmp n xs, ∀ y ∈ left cmp n xs, (cmp x y).isLE := by
  induction n generalizing xs with
  | zero => exact ⟨List.Pairwise.nil, fun x hx => absurd hx (List.not_mem_nil)⟩
  | succ n ih =>
    rcases hmin : minBy cmp xs with _ | m
    · rw [(minBy_eq_none_iff cmp).mp hmin, taken_nil]
      exact ⟨List.Pairwise.nil, fun x hx => absurd hx (List.not_mem_nil)⟩
    · have hleast := minBy_isLE cmp hmin
      obtain ⟨hsorted, hbefore⟩ := ih (xs.erase m)
      rw [taken_succ hmin, left_succ hmin]
      refine ⟨List.pairwise_cons.mpr ⟨fun y hy => ?_, hsorted⟩, fun x hx y hy => ?_⟩
      · exact hleast y (List.mem_of_mem_erase (mem_of_mem_taken hy))
      · rcases List.mem_cons.mp hx with rfl | hx
        · exact hleast y (List.mem_of_mem_erase (mem_of_mem_left hy))
        · exact hbefore x hx y hy

/-- Two orders of one list give the same items where only equals tie. -/
theorem taken_perm {n : Nat} {xs ys : List α} (hperm : xs.Perm ys)
    (hties : ∀ x ∈ xs, ∀ y ∈ xs, cmp x y = .eq → x = y) : taken cmp n xs = taken cmp n ys := by
  induction n generalizing xs ys with
  | zero => rfl
  | succ n ih =>
    have hsame := minBy_perm cmp hperm hties
    rcases hmin : minBy cmp xs with _ | m
    · have hxs := (minBy_eq_none_iff cmp).mp hmin
      rw [hxs] at hperm
      rw [hxs, List.nil_perm.mp hperm]
    · rw [taken_succ hmin, taken_succ (hsame ▸ hmin), ih (hperm.erase m)]
      intro x hx y hy
      exact hties x (List.mem_of_mem_erase hx) y (List.mem_of_mem_erase hy)

end Minimum
end IndieWorker
