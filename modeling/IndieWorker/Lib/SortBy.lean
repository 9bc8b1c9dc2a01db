/-
Sorting by a comparator.

`sortBy` inserts the entries from the left, each in front of those that compare
greater.  It rearranges the list whatever the comparator is.  Where the comparator is
an order the result is sorted, and entries that compare equal only if they are the
same have one order.
-/
import Mathlib.Data.List.Sort

namespace IndieWorker
namespace SortBy

variable {α β : Type}

def sortBy (cmp : α → α → Ordering) (l : List α) : List α :=
  (l.reverse.insertionSort fun a b => cmp a b ≠ .lt).reverse

section Comparator

variable (cmp : α → α → Ordering)

theorem sortBy_perm (l : List α) : (sortBy cmp l).Perm l :=
  (List.reverse_perm _).trans ((List.perm_insertionSort _ _).trans (List.reverse_perm l))

variable {cmp}

theorem mem_sortBy {l : List α} {a : α} : a ∈ sortBy cmp l ↔ a ∈ l :=
  (sortBy_perm cmp l).mem_iff

/-- Entries that compare as their images do are sorted as these are. -/
theorem map_sortBy {cmp' : β → β → Ordering} {f : α → β} {l : List α}
    (h : ∀ a ∈ l, ∀ b ∈ l, cmp a b = cmp' (f a) (f b)) :
    (sortBy cmp l).map f = sortBy cmp' (l.map f) := by
  have hsort : (l.reverse.insertionSort fun a b => cmp a b ≠ .lt).map f =
      (l.reverse.map f).insertionSort fun a b => cmp' a b ≠ .lt := by
    refine List.map_insertionSort _ _ f l.reverse fun a ha b hb => ?_
    rw [h a (List.mem_reverse.mp ha) b (List.mem_reverse.mp hb)]
  rw [sortBy, List.map_reverse, hsort, List.map_reverse, sortBy]

theorem sortBy_congr {cmp' : α → α → Ordering} {l : List α}
    (h : ∀ a ∈ l, ∀ b ∈ l, cmp a b = cmp' a b) : sortBy cmp l = sortBy cmp' l := by
  have hmap := map_sortBy (f := id) h
  rwa [List.map_id, List.map_id] at hmap

end Comparator

section Order

variable {cmp : α → α → Ordering} [Std.TransCmp cmp]

theorem pairwise_sortBy (l : List α) : (sortBy cmp l).Pairwise fun a b => (cmp a b).isLE := by
  have htotal : Std.Total fun a b => cmp a b ≠ .lt := by
    constructor
    intro a b
    by_contra h
    rw [not_or, not_not, not_not] at h
    have hswap : cmp a b = (cmp b a).swap := Std.OrientedCmp.eq_swap
    rw [h.1, h.2] at hswap
    cases hswap
  have htrans : IsTrans α fun a b => cmp a b ≠ .lt := by
    constructor
    intro a b c hab hbc
    have hge := Std.TransCmp.isGE_trans (Ordering.isGE_iff_ne_lt.mpr hab)
      (Ordering.isGE_iff_ne_lt.mpr hbc)
    exact Ordering.isGE_iff_ne_lt.mp hge
  rw [sortBy, List.pairwise_reverse]
  refine (List.pairwise_insertionSort _ l.reverse).imp fun {a b} h => ?_
  have hswap : cmp b a = (cmp a b).swap := Std.OrientedCmp.eq_swap
  rw [hswap, Ordering.isLE_swap]
  exact Ordering.isGE_iff_ne_lt.mpr h

/-- Rearranged entries are sorted into one order. -/
theorem sortBy_eq_of_perm {l l' : List α} (hperm : l.Perm l')
    (h : ∀ a ∈ l, ∀ b ∈ l, cmp a b = .eq → a = b) : sortBy cmp l = sortBy cmp l' := by
  have hsorted : (sortBy cmp l).Perm (sortBy cmp l') :=
    (sortBy_perm cmp l).trans (hperm.trans (sortBy_perm cmp l').symm)
  refine List.Perm.eq_of_pairwise (fun a b ha hb hab hba => ?_) (pairwise_sortBy l)
    (pairwise_sortBy l') hsorted
  have hb' : b ∈ l := hperm.mem_iff.mpr (mem_sortBy.mp hb)
  exact h a (mem_sortBy.mp ha) b hb' (Std.OrientedCmp.isLE_antisymm hab hba)

end Order

end SortBy
end IndieWorker
