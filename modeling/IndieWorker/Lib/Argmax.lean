/-
The first of the largest.

A loop offers the candidates in increasing order and keeps one whose score is
greater than that of the one it has.  At any time it holds the first of the
candidates so far whose score is largest, or where it started if there were none.
-/
import Mathlib.Order.Defs.LinearOrder
import Mathlib.Order.Lattice
import Mathlib.Order.Monotone.Basic

namespace IndieWorker
namespace Argmax

/-- The candidate kept and its score, which is missing at the start. -/
structure Best (K : Type) where
  index : Nat
  score : Option K

variable {K : Type} [LinearOrder K]

/-- Any score beats a missing one. -/
def Best.offer (best : Best K) (index : Nat) (score : K) : Best K :=
  if best.score.all (· < score) then ⟨index, some score⟩ else best

/-- No candidate has a larger score and none before has the same. -/
structure FirstLargest (candidate : Nat → Prop) (score : Nat → K) (i : Nat) : Prop where
  offered : candidate i
  largest : ∀ j, candidate j → score j ≤ score i
  first : ∀ j < i, candidate j → score j < score i

/-- What is kept when the candidates below `n` were offered. -/
def Tracks (candidate : Nat → Prop) (score : Nat → K) (start n : Nat) (best : Best K) : Prop :=
  match best.score with
  | none => best.index = start ∧ ∀ j < n, ¬candidate j
  | some v => v = score best.index ∧ FirstLargest (fun j => candidate j ∧ j < n) score best.index

section Loop

variable {candidate : Nat → Prop} {score : Nat → K} {start n : Nat} {best : Best K}

theorem tracks_start : Tracks candidate score start 0 ⟨start, none⟩ :=
  ⟨rfl, fun _ hj => absurd hj (Nat.not_lt_zero _)⟩

theorem Tracks.skip (h : Tracks candidate score start n best) (hn : ¬candidate n) :
    Tracks candidate score start (n + 1) best := by
  have hsame : ∀ j, candidate j ∧ j < n + 1 ↔ candidate j ∧ j < n := by
    intro j
    by_cases hj : j = n
    · subst hj
      simp [hn]
    · rw [and_congr_right_iff]
      intro _
      omega
  obtain ⟨index, _ | v⟩ := best
  · obtain ⟨hstart, hnone⟩ := h
    refine ⟨hstart, fun j hj hcandidate => ?_⟩
    have hboth := (hsame j).mp ⟨hcandidate, hj⟩
    exact hnone j hboth.2 hcandidate
  · obtain ⟨hv, hfirst⟩ := h
    refine ⟨hv, (hsame index).mpr hfirst.offered, fun j hj => hfirst.largest j ((hsame j).mp hj),
      fun j hj hboth => hfirst.first j hj ((hsame j).mp hboth)⟩

theorem FirstLargest.offered_last {i : Nat} (hn : candidate n)
    (h : FirstLargest (fun j => candidate j ∧ j < n) score i) (hlt : score i < score n) :
    FirstLargest (fun j => candidate j ∧ j < n + 1) score n := by
  refine ⟨⟨hn, Nat.lt_succ_self n⟩, fun j hj => ?_, fun j hj hboth => ?_⟩
  · by_cases heq : j = n
    · rw [heq]
    · exact le_trans (h.largest j ⟨hj.1, by omega⟩) (le_of_lt hlt)
  · exact lt_of_le_of_lt (h.largest j ⟨hboth.1, hj⟩) hlt

theorem FirstLargest.kept {i : Nat} (h : FirstLargest (fun j => candidate j ∧ j < n) score i)
    (hle : score n ≤ score i) : FirstLargest (fun j => candidate j ∧ j < n + 1) score i := by
  have hi := h.offered
  refine ⟨⟨hi.1, by omega⟩, fun j hj => ?_, fun j hj hboth => ?_⟩
  · by_cases heq : j = n
    · rw [heq]
      exact hle
    · exact h.largest j ⟨hj.1, by omega⟩
  · exact h.first j hj ⟨hboth.1, by omega⟩

theorem Tracks.offer (h : Tracks candidate score start n best) (hn : candidate n) :
    Tracks candidate score start (n + 1) (best.offer n (score n)) := by
  obtain ⟨index, _ | v⟩ := best
  · obtain ⟨-, hnone⟩ := h
    show score n = score n ∧ FirstLargest (fun j => candidate j ∧ j < n + 1) score n
    refine ⟨rfl, ⟨hn, Nat.lt_succ_self n⟩, fun j hj => ?_, fun j hj hboth => ?_⟩
    · by_cases heq : j = n
      · rw [heq]
      · exact absurd hj.1 (hnone j (by omega))
    · exact absurd hboth.1 (hnone j hj)
  · have hv : v = score index := h.1
    have hfirst : FirstLargest (fun j => candidate j ∧ j < n) score index := h.2
    by_cases hlt : v < score n
    · have hoffer : Best.offer ⟨index, some v⟩ n (score n) = ⟨n, some (score n)⟩ := by
        simp [Best.offer, hlt]
      rw [hoffer]
      exact ⟨rfl, hfirst.offered_last hn (hv ▸ hlt)⟩
    · have hoffer : Best.offer ⟨index, some v⟩ n (score n) = ⟨index, some v⟩ := by
        simp [Best.offer, hlt]
      rw [hoffer]
      exact ⟨hv, hfirst.kept (hv ▸ not_lt.mp hlt)⟩

/-- With a candidate offered, the first of the largest is kept. -/
theorem Tracks.firstLargest (h : Tracks candidate score start n best) {j : Nat} (hj : j < n)
    (hcandidate : candidate j) :
    FirstLargest (fun j => candidate j ∧ j < n) score best.index := by
  obtain ⟨index, _ | v⟩ := best
  · exact absurd hcandidate (h.2 j hj)
  · exact h.2

theorem FirstLargest.eq_of_lt {i k : Nat} (h : FirstLargest candidate score i) (hk : candidate k)
    (hlt : ∀ j, candidate j → j ≠ k → score j < score k) : i = k := by
  by_contra hne
  exact absurd (h.largest k hk) (not_le.mpr (hlt i h.offered hne))

end Loop

/-! ## Scores in other units -/

section Units

variable {K' : Type} [LinearOrder K'] {f : K → K'}

omit [LinearOrder K] [LinearOrder K'] in
variable (f) in
def Best.map (best : Best K) : Best K' := ⟨best.index, best.score.map f⟩

/-- Only the order of the scores matters. -/
theorem Best.offer_map (hf : StrictMono f) (best : Best K) (index : Nat) (v : K) :
    (best.map f).offer index (f v) = (best.offer index v).map f := by
  obtain ⟨kept, _ | w⟩ := best
  · rfl
  · by_cases hlt : w < v
    · simp [Best.offer, Best.map, hlt, hf hlt]
    · simp [Best.offer, Best.map, hlt, hf.lt_iff_lt]

end Units

end Argmax
end IndieWorker
