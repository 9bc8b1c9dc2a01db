/-
Checks that collect findings, or stop.

A check answers the list of what it found wrong, unless it stops early with an
error.  `Decides mustEnd r P` says that ending with nothing found means `P`, and, if
it must, that the check runs to its end.  The rules below follow the ways in which
checks are put together: one after the other, one for each entry of a list, and
counting the entries in which nothing is found; only what is counted must end.
-/
import Mathlib.Data.List.Forall2

namespace IndieWorker
namespace Findings

variable {ε α β γ : Type}

/-- One check after the other. -/
def andThen (first second : Except ε (List α)) : Except ε (List α) :=
  match first with
  | .error e => .error e
  | .ok found =>
    match second with
    | .error e => .error e
    | .ok more => .ok (found ++ more)

/-- A check for each entry, in order. -/
def forEach (check : β → Except ε (List α)) : List β → Except ε (List α)
  | [] => .ok []
  | x :: xs => andThen (check x) (forEach check xs)

/-- The entries in which nothing is found. -/
def clean (check : β → Except ε (List α)) : List β → Except ε (List β)
  | [] => .ok []
  | x :: xs =>
    match check x with
    | .error e => .error e
    | .ok found =>
      match clean check xs with
      | .error e => .error e
      | .ok rest => .ok (if found.isEmpty then x :: rest else rest)

/-- Ending with nothing found means `P`, and a check that must end does. -/
structure Decides (mustEnd : Bool) (r : Except ε (List α)) (P : Prop) : Prop where
  eq_ok_nil_iff : r = .ok [] ↔ P
  ends : mustEnd = true → ∃ found, r = .ok found

variable {mustEnd : Bool} {r s : Except ε (List α)} {P Q : Prop}

theorem decides_ok {found : List α} (h : found = [] ↔ P) :
    Decides mustEnd (.ok found : Except ε (List α)) P :=
  ⟨by rw [← h, Except.ok.injEq], fun _ => ⟨found, rfl⟩⟩

/-- A check that stops, where it may, decides what does not hold. -/
theorem decides_error {e : ε} (h : ¬P) : Decides false (.error e : Except ε (List α)) P :=
  ⟨iff_of_false nofun h, nofun⟩

theorem decides_test {test : Bool} {finding : α} (h : test = true ↔ P) :
    Decides mustEnd (if test = true then .ok [] else .ok [finding] : Except ε (List α)) P := by
  by_cases htest : test = true
  · rw [if_pos htest]
    exact decides_ok (iff_of_true rfl (h.mp htest))
  · rw [if_neg htest]
    exact decides_ok (iff_of_false (List.cons_ne_nil _ _) fun hP => htest (h.mpr hP))

theorem Decides.congr (h : Decides mustEnd r P) (hiff : P ↔ Q) : Decides mustEnd r Q :=
  ⟨h.eq_ok_nil_iff.trans hiff, h.ends⟩

theorem andThen_eq_ok_nil_iff : andThen r s = .ok [] ↔ r = .ok [] ∧ s = .ok [] := by
  cases r with
  | error e => simp [andThen]
  | ok found => cases s <;> simp [andThen]

theorem Decides.andThen (hr : Decides mustEnd r P) (hs : Decides mustEnd s Q) :
    Decides mustEnd (andThen r s) (P ∧ Q) := by
  refine ⟨?_, fun hmust => ?_⟩
  · rw [andThen_eq_ok_nil_iff, hr.eq_ok_nil_iff, hs.eq_ok_nil_iff]
  · obtain ⟨found, rfl⟩ := hr.ends hmust
    obtain ⟨more, rfl⟩ := hs.ends hmust
    exact ⟨found ++ more, rfl⟩

/-- The entries may answer for those of another list. -/
theorem Decides.forEach {check : β → Except ε (List α)} {R : γ → Prop} {xs : List γ}
    {ys : List β} (h : List.Forall₂ (fun x y => Decides mustEnd (check y) (R x)) xs ys) :
    Decides mustEnd (forEach check ys) (∀ x ∈ xs, R x) := by
  induction h with
  | nil => exact decides_ok (by simp)
  | cons hxy _ ih => exact (hxy.andThen ih).congr List.forall_mem_cons.symm

/-- How many entries are clean is how many entries of the other list hold. -/
theorem clean_length {check : β → Except ε (List α)} {R : γ → Prop} {xs : List γ} {ys : List β}
    (h : List.Forall₂ (fun x y => Decides true (check y) (R x)) xs ys) {p : γ → Bool}
    (hp : ∀ x, p x = true ↔ R x) :
    ∃ kept, clean check ys = .ok kept ∧ kept.length = (xs.filter p).length := by
  induction h with
  | nil => exact ⟨[], rfl, rfl⟩
  | @cons x y xs ys hxy _ ih =>
    obtain ⟨found, hfound⟩ := hxy.ends rfl
    have hiff := hxy.eq_ok_nil_iff
    rw [hfound, Except.ok.injEq] at hiff
    obtain ⟨kept, hkept, hlen⟩ := ih
    refine ⟨if found.isEmpty then y :: kept else kept, ?_, ?_⟩
    · rw [clean, hfound, hkept]
    · by_cases hx : p x = true
      · have hnil : found = [] := hiff.mpr ((hp x).mp hx)
        rw [List.filter_cons_of_pos hx, hnil]
        exact congrArg (· + 1) hlen
      · have hne : found ≠ [] := fun hnil => hx ((hp x).mpr (hiff.mp hnil))
        rw [List.filter_cons_of_neg hx, if_neg (by rwa [List.isEmpty_iff])]
        exact hlen

end Findings
end IndieWorker
