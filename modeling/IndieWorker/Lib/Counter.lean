/-
A counter that takes only the number it waits for.

Whatever is delivered to it, what it takes is a run of consecutive numbers.  A
run that is delivered in order, among any other numbers, is taken whole.  A counter
that stops at a greatest number takes that one as often as it comes.
-/
import Mathlib.Data.List.Range

namespace IndieWorker
namespace Counter

/-- The numbers a counter waiting for `n` takes from a delivery. -/
def taken : Nat → List Nat → List Nat
  | _, [] => []
  | n, d :: ds => if d = n then d :: taken (n + 1) ds else taken n ds

theorem taken_wanted (n : Nat) (ds : List Nat) : taken n (n :: ds) = n :: taken (n + 1) ds :=
  if_pos rfl

theorem taken_other {n d : Nat} (h : d ≠ n) (ds : List Nat) : taken n (d :: ds) = taken n ds :=
  if_neg h

/-- Nothing is missing and nothing comes twice. -/
theorem taken_dense (n : Nat) (ds : List Nat) :
    taken n ds = List.range' n (taken n ds).length := by
  induction ds generalizing n with
  | nil => rfl
  | cons d ds ih =>
    by_cases h : d = n
    · subst h
      rw [taken_wanted, List.length_cons, List.range'_succ, ← ih]
    · rw [taken_other h]
      exact ih n

theorem taken_sublist (n : Nat) (ds : List Nat) : (taken n ds).Sublist ds := by
  induction ds generalizing n with
  | nil => exact List.Sublist.slnil
  | cons d ds ih =>
    by_cases h : d = n
    · subst h
      rw [taken_wanted]
      exact (ih (d + 1)).cons_cons d
    · rw [taken_other h]
      exact (ih n).cons d

/-- A run delivered in order is taken first. -/
theorem prefix_taken {n k : Nat} {ds : List Nat} (h : (List.range' n k).Sublist ds) :
    List.range' n k <+: taken n ds := by
  induction ds generalizing n k with
  | nil =>
    rw [List.sublist_nil.mp h]
    exact List.nil_prefix
  | cons d ds ih =>
    cases k with
    | zero => exact List.nil_prefix
    | succ k =>
      rw [List.range'_succ, List.cons_sublist_cons'] at h
      by_cases hd : d = n
      · subst hd
        have hrest : (List.range' (d + 1) k).Sublist ds := by
          rcases h with h | h
          · exact (List.sublist_cons_self d _).trans h
          · exact h.2
        rw [taken_wanted, List.range'_succ]
        exact List.cons_prefix_cons.mpr ⟨rfl, ih hrest⟩
      · rcases h with h | h
        · rw [taken_other hd]
          rw [← List.range'_succ] at h
          exact ih h
        · exact absurd h.1.symm hd

/-- It is all that is taken when no later number is delivered. -/
theorem taken_eq {n k : Nat} {ds : List Nat} (h : (List.range' n k).Sublist ds)
    (hlast : ∀ d ∈ ds, d < n + k) : taken n ds = List.range' n k := by
  have hprefix := (prefix_taken h).length_le
  have hdense := taken_dense n ds
  rw [List.length_range'] at hprefix
  have hlength : (taken n ds).length = k := by
    by_contra hne
    have hmem : n + k ∈ taken n ds := by
      rw [hdense, List.mem_range'_1]
      omega
    have := hlast _ ((taken_sublist n ds).subset hmem)
    omega
  rw [hdense, hlength]

/-! ## Stopping at a greatest number -/

/-- The numbers taken by a counter that waits for `n` and never for more than `M`. -/
def takenUpTo (M : Nat) : Nat → List Nat → List Nat
  | _, [] => []
  | n, d :: ds => if d = n then d :: takenUpTo M (min (n + 1) M) ds else takenUpTo M n ds

theorem takenUpTo_wanted (M n : Nat) (ds : List Nat) :
    takenUpTo M n (n :: ds) = n :: takenUpTo M (min (n + 1) M) ds :=
  if_pos rfl

theorem takenUpTo_other {M n d : Nat} (h : d ≠ n) (ds : List Nat) :
    takenUpTo M n (d :: ds) = takenUpTo M n ds :=
  if_neg h

theorem le_of_mem_takenUpTo {M n x : Nat} {ds : List Nat} (hn : n ≤ M)
    (hx : x ∈ takenUpTo M n ds) : n ≤ x := by
  induction ds generalizing n with
  | nil => cases hx
  | cons d ds ih =>
    by_cases hd : d = n
    · subst hd
      rw [takenUpTo_wanted] at hx
      rcases List.mem_cons.mp hx with hx | hx
      · exact Nat.le_of_eq hx.symm
      · have hle := ih (Nat.min_le_right _ _) hx
        omega
    · rw [takenUpTo_other hd] at hx
      exact ih hn hx

/-- At the greatest number every copy of it is taken. -/
theorem takenUpTo_greatest (M : Nat) (ds : List Nat) :
    takenUpTo M M ds = ds.filter (· = M) := by
  induction ds with
  | nil => rfl
  | cons d ds ih =>
    by_cases hd : d = M
    · subst hd
      rw [takenUpTo_wanted, Nat.min_eq_right (Nat.le_succ d), ih]
      simp
    · rw [takenUpTo_other hd, ih]
      simp [hd]

/-- The only way to take a number twice is to be offered every number up to the
greatest, in order, and the greatest again.  The induction is on the delivery. -/
theorem nodup_takenUpTo_iff {M n : Nat} {ds : List Nat} (hn : n ≤ M) :
    (takenUpTo M n ds).Nodup ↔ ¬ (List.range' n (M + 1 - n) ++ [M]).Sublist ds := by
  induction ds generalizing n with
  | nil =>
    refine iff_of_true List.nodup_nil fun h => ?_
    have := List.sublist_nil.mp h
    simp at this
  | cons d ds ih =>
    have hsucc : M + 1 - n = (M - n) + 1 := by omega
    by_cases hd : d = n
    · subst hd
      rw [takenUpTo_wanted, List.nodup_cons]
      by_cases htop : d = M
      · subst htop
        rw [Nat.min_eq_right (Nat.le_succ d), takenUpTo_greatest]
        have hrun : List.range' d (d + 1 - d) ++ [d] = [d, d] := by
          rw [Nat.add_sub_cancel_left]
          rfl
        rw [hrun, List.cons_sublist_cons, List.singleton_sublist]
        constructor
        · intro hnodup hmem
          exact hnodup.1 (List.mem_filter.mpr ⟨hmem, by simp⟩)
        · intro hnot
          have hnone : ds.filter (· = d) = [] :=
            List.filter_eq_nil_iff.mpr fun x hx heq => hnot (by simp at heq; rwa [← heq])
          rw [hnone]
          exact ⟨nofun, List.nodup_nil⟩
      · have hnext : min (d + 1) M = d + 1 := Nat.min_eq_left (by omega)
        have hnot : d ∉ takenUpTo M (d + 1) ds := fun hmem => by
          have := le_of_mem_takenUpTo (by omega) hmem
          omega
        have hrest : M + 1 - (d + 1) = M - d := by omega
        rw [hnext, and_iff_right hnot, ih (by omega), hsucc, List.range'_succ, List.cons_append,
          List.cons_sublist_cons, hrest]
    · rw [takenUpTo_other hd, ih hn, not_iff_not, hsucc, List.range'_succ, List.cons_append]
      constructor
      · exact fun h => h.cons d
      · intro h
        rcases List.cons_sublist_cons'.mp h with h | h
        · exact h
        · exact absurd h.1.symm hd

end Counter
end IndieWorker
