/-
Gauss-Jordan inversion with partial pivoting.

The columns are processed in order.  A turn swaps the row of the largest entry
into place, divides it by that entry and clears the column in the other rows; the
same is done to a second matrix that starts as the identity.  The program refuses
a pivot below a tolerance.  The pivots of the exact elimination, which refuses
nothing, decide everything: all of them differ from zero exactly when the columns
are independent, and all of them reach the tolerance exactly when the program
answers, with the inverse.
-/
import Mathlib.Algebra.BigOperators.Field
import Mathlib.Algebra.Order.Field.Basic
import Mathlib.Algebra.Order.Group.Unbundled.Abs
import Mathlib.Data.List.FinRange
import Mathlib.LinearAlgebra.Matrix.NonsingularInverse

namespace IndieWorker
namespace GaussJordan

open Matrix

variable {K : Type} [Field K] [LinearOrder K] {n m : Nat}

/-! ## The elimination -/

/-- The rows from a row on. -/
def candidates (c : Fin n) : List (Fin n) := (List.finRange n).filter (c ≤ ·)

/-- The row with the largest score, the last of those that have it. -/
def lastLargest {S : Type} [LinearOrder S] (score : Fin n → S) (c : Fin n) : Fin n :=
  (candidates c).foldl (fun best i => if score best ≤ score i then i else best) c

/-- The row of the largest entry of a column. -/
def pivotRow (L : Matrix (Fin n) (Fin n) K) (c : Fin n) : Fin n :=
  lastLargest (fun i => |L i c|) c

/-- What a turn on the column `c` of `L` does to the rows of a matrix. -/
def turn (L : Matrix (Fin n) (Fin n) K) (c p : Fin n) (X : Matrix (Fin n) (Fin m) K) :
    Matrix (Fin n) (Fin m) K :=
  let factor (i : Fin n) := L (Equiv.swap c p i) c
  let swapped : Matrix (Fin n) (Fin m) K := fun i j => X (Equiv.swap c p i) j
  let scaled : Matrix (Fin n) (Fin m) K := fun i j =>
    if i = c then swapped i j / factor c else swapped i j
  fun i j => if i = c ∨ factor i = 0 then scaled i j else scaled i j - factor i * scaled c j

/-- The two matrices after a turn. -/
def advance (c : Fin n) (s : Matrix (Fin n) (Fin n) K × Matrix (Fin n) (Fin n) K) :
    Matrix (Fin n) (Fin n) K × Matrix (Fin n) (Fin n) K :=
  (turn s.1 c (pivotRow s.1 c) s.1, turn s.1 c (pivotRow s.1 c) s.2)

section Program

variable (tolerance : K) (M : Matrix (Fin n) (Fin n) K)

/-- The matrices after some columns, unless a pivot was refused. -/
def columns : Nat → Option (Matrix (Fin n) (Fin n) K × Matrix (Fin n) (Fin n) K)
  | 0 => some (M, 1)
  | k + 1 =>
    (columns k).bind fun s =>
      if h : k < n then
        let c : Fin n := ⟨k, h⟩
        if |s.1 (pivotRow s.1 c) c| < tolerance then none else some (advance c s)
      else some s

def invert : Option (Matrix (Fin n) (Fin n) K) := (columns tolerance M n).map Prod.snd

/-- The matrices after some columns of the exact elimination. -/
def state : Nat → Matrix (Fin n) (Fin n) K × Matrix (Fin n) (Fin n) K
  | 0 => (M, 1)
  | k + 1 => if h : k < n then advance ⟨k, h⟩ (state k) else state k

/-- The pivot of a column in the exact elimination. -/
def pivot (c : Fin n) : K := (state M c).1 (pivotRow (state M c).1 c) c

end Program

/-! ## A turn -/

section Turn

variable {L : Matrix (Fin n) (Fin n) K} {c p : Fin n} {X : Matrix (Fin n) (Fin m) K}

theorem turn_self (j : Fin m) : turn L c p X c j = X p j / L p c := by
  simp [turn]

theorem turn_other {i : Fin n} (hi : i ≠ c) (j : Fin m) :
    turn L c p X i j = X (Equiv.swap c p i) j -
      L (Equiv.swap c p i) c * (X p j / L p c) := by
  by_cases hzero : L (Equiv.swap c p i) c = 0
  · simp [turn, hi, hzero]
  · simp [turn, hi, hzero]

/-- A turn acts on rows, whatever stands behind them. -/
theorem turn_mul (M : Matrix (Fin m) (Fin m) K) : turn L c p (X * M) = turn L c p X * M := by
  ext i j
  rw [Matrix.mul_apply]
  by_cases hi : i = c
  · subst hi
    rw [turn_self, Matrix.mul_apply, Finset.sum_div]
    exact Finset.sum_congr rfl fun k _ => by rw [turn_self, div_mul_eq_mul_div]
  · rw [turn_other hi, Matrix.mul_apply, Matrix.mul_apply, Finset.sum_div, Finset.mul_sum,
      ← Finset.sum_sub_distrib]
    refine Finset.sum_congr rfl fun k _ => ?_
    rw [turn_other hi]
    ring

/-- A turn on a pivot loses nothing of what a matrix says of a vector. -/
theorem turn_mulVec_eq_zero_iff (hp : L p c ≠ 0) {v : Fin m → K} :
    turn L c p X *ᵥ v = 0 ↔ X *ᵥ v = 0 := by
  have hself : (turn L c p X *ᵥ v) c = (X *ᵥ v) p / L p c := by
    simp only [Matrix.mulVec, dotProduct, Finset.sum_div]
    exact Finset.sum_congr rfl fun j _ => by rw [turn_self, div_mul_eq_mul_div]
  have hother : ∀ i, i ≠ c → (turn L c p X *ᵥ v) i =
      (X *ᵥ v) (Equiv.swap c p i) - L (Equiv.swap c p i) c * ((X *ᵥ v) p / L p c) := by
    intro i hi
    simp only [Matrix.mulVec, dotProduct, Finset.sum_div, Finset.mul_sum,
      ← Finset.sum_sub_distrib]
    refine Finset.sum_congr rfl fun j _ => ?_
    rw [turn_other hi]
    ring
  constructor
  · intro h
    have hpivot : (X *ᵥ v) p = 0 := by
      have hc := congrFun h c
      rw [hself, Pi.zero_apply] at hc
      exact (div_eq_zero_iff.mp hc).resolve_right hp
    funext i
    by_cases hi : i = p
    · rw [hi]
      exact hpivot
    · have hne : Equiv.swap c p i ≠ c := by
        intro heq
        exact hi (Equiv.swap_apply_eq_iff.mp heq |>.trans (Equiv.swap_apply_left c p))
      have hrow := congrFun h (Equiv.swap c p i)
      rw [hother _ hne, hpivot, Equiv.swap_apply_self, zero_div, mul_zero, sub_zero] at hrow
      exact hrow
  · intro h
    funext i
    by_cases hi : i = c
    · rw [hi, hself, h]
      simp
    · rw [hother i hi, h]
      simp

/-- The first `k` columns are those of the identity. -/
def UnitColumns (k : Nat) (L : Matrix (Fin n) (Fin n) K) : Prop :=
  ∀ j : Fin n, j.val < k → ∀ i, L i j = if i = j then 1 else 0

theorem unitColumns_turn (h : UnitColumns c.val L) (hle : c ≤ p) (hp : L p c ≠ 0) :
    UnitColumns (c.val + 1) (turn L c p L) := by
  intro j hj i
  by_cases hjc : j = c
  · subst hjc
    by_cases hi : i = j
    · rw [hi, turn_self, div_self hp, if_pos rfl]
    · rw [turn_other hi, div_self hp, mul_one, sub_self, if_neg hi]
  -- neither swapped row has anything in a column that is done
  · have hlt : j.val < c.val := by
      have : j.val ≠ c.val := fun heq => hjc (Fin.ext heq)
      omega
    have hne : ∀ i : Fin n, c ≤ i → L i j = 0 := by
      intro i hi
      rw [h j hlt i, if_neg]
      intro heq
      have hval : c.val ≤ i.val := hi
      rw [heq] at hval
      omega
    by_cases hi : i = c
    · rw [hi, turn_self, hne p hle, zero_div, if_neg (Ne.symm hjc)]
    · rw [turn_other hi, hne p hle, zero_div, mul_zero, sub_zero]
      by_cases hip : i = p
      · rw [hip, Equiv.swap_apply_right, hne c le_rfl, if_neg]
        intro heq
        have hval : c.val ≤ p.val := hle
        rw [heq] at hval
        omega
      · rw [Equiv.swap_apply_of_ne_of_ne hi hip]
        exact h j hlt i

end Turn

/-! ## The pivot -/

section Pivot

variable {L : Matrix (Fin n) (Fin n) K} {c : Fin n}

theorem mem_candidates {i : Fin n} : i ∈ candidates c ↔ c ≤ i := by
  simp [candidates]

theorem lastLargest_spec {S : Type} [LinearOrder S] (score : Fin n → S) (c : Fin n) :
    c ≤ lastLargest score c ∧ ∀ i, c ≤ i → score i ≤ score (lastLargest score c) := by
  have hfold : ∀ (rows : List (Fin n)) (best : Fin n), (∀ i ∈ rows, c ≤ i) → c ≤ best →
      let last := rows.foldl (fun best i => if score best ≤ score i then i else best) best
      c ≤ last ∧ score best ≤ score last ∧ ∀ i ∈ rows, score i ≤ score last := by
    intro rows
    induction rows with
    | nil => exact fun best _ hbest => ⟨hbest, le_rfl, nofun⟩
    | cons i rows ih =>
      intro best hrows hbest
      obtain ⟨hi, hrows⟩ := List.forall_mem_cons.mp hrows
      rw [List.foldl_cons]
      by_cases hle : score best ≤ score i
      · rw [if_pos hle]
        obtain ⟨hlast, hmax, hall⟩ := ih i hrows hi
        exact ⟨hlast, hle.trans hmax, List.forall_mem_cons.mpr ⟨hmax, hall⟩⟩
      · rw [if_neg hle]
        obtain ⟨hlast, hmax, hall⟩ := ih best hrows hbest
        exact ⟨hlast, hmax, List.forall_mem_cons.mpr ⟨(not_le.mp hle).le.trans hmax, hall⟩⟩
  obtain ⟨hlast, -, hall⟩ := hfold (candidates c) c (fun i hi => mem_candidates.mp hi) le_rfl
  exact ⟨hlast, fun i hi => hall i (mem_candidates.mpr hi)⟩

/-- Only the order of the scores matters. -/
theorem lastLargest_congr {S : Type} [LinearOrder S] {f g : Fin n → S} {c : Fin n}
    (h : ∀ i j, c ≤ i → c ≤ j → (f i ≤ f j ↔ g i ≤ g j)) : lastLargest f c = lastLargest g c := by
  have hfold : ∀ (rows : List (Fin n)) (best : Fin n), (∀ i ∈ rows, c ≤ i) → c ≤ best →
      rows.foldl (fun best i => if f best ≤ f i then i else best) best =
        rows.foldl (fun best i => if g best ≤ g i then i else best) best := by
    intro rows
    induction rows with
    | nil => exact fun _ _ _ => rfl
    | cons i rows ih =>
      intro best hrows hbest
      obtain ⟨hi, hrows⟩ := List.forall_mem_cons.mp hrows
      rw [List.foldl_cons, List.foldl_cons]
      by_cases hle : f best ≤ f i
      · rw [if_pos hle, if_pos ((h best i hbest hi).mp hle)]
        exact ih i hrows hi
      · rw [if_neg hle, if_neg fun hg => hle ((h best i hbest hi).mpr hg)]
        exact ih best hrows hbest
  exact hfold (candidates c) c (fun i hi => mem_candidates.mp hi) le_rfl

theorem pivotRow_spec : c ≤ pivotRow L c ∧ ∀ i, c ≤ i → |L i c| ≤ |L (pivotRow L c) c| :=
  lastLargest_spec (fun i => |L i c|) c

end Pivot

/-! ## The exact elimination -/

section State

variable {M : Matrix (Fin n) (Fin n) K}

theorem state_succ (c : Fin n) : state M (c.val + 1) = advance c (state M c) := by
  rw [state, dif_pos c.isLt]

/-- The second matrix records what was done to the first. -/
theorem state_mul (k : Nat) : (state M k).2 * M = (state M k).1 := by
  induction k with
  | zero => exact Matrix.one_mul M
  | succ k ih =>
    rw [state]
    split
    · show turn _ _ _ _ * M = turn _ _ _ _
      rw [← turn_mul, ih]
    · exact ih

theorem state_of_pivots {k : Nat} (h : ∀ c : Fin n, c.val < k → pivot M c ≠ 0) :
    UnitColumns k (state M k).1 ∧ ∀ v, (state M k).1 *ᵥ v = 0 ↔ M *ᵥ v = 0 := by
  induction k with
  | zero => exact ⟨fun j hj => absurd hj (Nat.not_lt_zero _), fun v => Iff.rfl⟩
  | succ k ih =>
    obtain ⟨hunit, hkernel⟩ := ih fun c hc => h c (Nat.lt_succ_of_lt hc)
    rw [state]
    split
    · next hk =>
      have hp : (state M k).1 (pivotRow (state M k).1 ⟨k, hk⟩) ⟨k, hk⟩ ≠ 0 :=
        h ⟨k, hk⟩ (Nat.lt_succ_self k)
      exact ⟨unitColumns_turn hunit pivotRow_spec.1 hp,
        fun v => (turn_mulVec_eq_zero_iff hp).trans (hkernel v)⟩
    · next hk =>
      exact ⟨fun j hj => hunit j (by omega), hkernel⟩

/-- With all columns done, the second matrix is the inverse. -/
theorem state_inverse (h : ∀ c, pivot M c ≠ 0) :
    (state M n).2 * M = 1 ∧ M * (state M n).2 = 1 := by
  have hone : (state M n).1 = 1 := by
    ext i j
    rw [(state_of_pivots fun c _ => h c).1 j j.isLt i, Matrix.one_apply]
  have hleft : (state M n).2 * M = 1 := (state_mul n).trans hone
  exact ⟨hleft, mul_eq_one_comm.mp hleft⟩

variable [IsStrictOrderedRing K]

/-- The columns before the first zero pivot give that of the zero pivot. -/
theorem dependent_of_pivot_eq_zero {c : Fin n} (hbefore : ∀ d : Fin n, d < c → pivot M d ≠ 0)
    (hc : pivot M c = 0) : ∃ v, v ≠ 0 ∧ M *ᵥ v = 0 := by
  obtain ⟨hunit, hkernel⟩ := state_of_pivots (k := c.val) fun d hd => hbefore d hd
  have hbelow : ∀ i, c ≤ i → (state M c).1 i c = 0 := by
    intro i hi
    have hle := (pivotRow_spec (L := (state M c).1)).2 i hi
    rw [show (state M c).1 (pivotRow (state M c).1 c) c = 0 from hc, abs_zero] at hle
    exact abs_nonpos_iff.mp hle
  let u : Fin n → K := fun j => if j < c then (state M c).1 j c else 0
  refine ⟨Pi.single c 1 - u, ?_, ?_⟩
  · intro hzero
    have hat := congrFun hzero c
    simp [u] at hat
  · rw [← hkernel, Matrix.mulVec_sub, sub_eq_zero, Matrix.mulVec_single_one]
    have hu : (state M c).1 *ᵥ u = u := by
      funext i
      have hterm : ∀ j, (state M c).1 i j * u j = if i = j then u j else 0 := by
        intro j
        by_cases hj : j < c
        · rw [hunit j hj i, ite_mul, one_mul, zero_mul]
        · have hzero : u j = 0 := if_neg hj
          rw [hzero, mul_zero, ite_self]
      calc ((state M c).1 *ᵥ u) i = ∑ j, (state M c).1 i j * u j := rfl
        _ = ∑ j, if i = j then u j else 0 := Finset.sum_congr rfl fun j _ => hterm j
        _ = u i := by simp
    rw [hu]
    funext i
    by_cases hi : i < c
    · simp [u, hi]
    · simp [u, hi, hbelow i (not_lt.mp hi)]

/-- The pivots differ from zero exactly when the columns are independent. -/
theorem forall_pivot_ne_zero_iff :
    (∀ c, pivot M c ≠ 0) ↔ ∀ v, M *ᵥ v = 0 → v = 0 := by
  constructor
  · intro h v hv
    have hleft := (state_inverse h).1
    calc v = (1 : Matrix (Fin n) (Fin n) K) *ᵥ v := (Matrix.one_mulVec v).symm
      _ = (state M n).2 *ᵥ (M *ᵥ v) := by rw [← hleft, Matrix.mulVec_mulVec]
      _ = 0 := by rw [hv, Matrix.mulVec_zero]
  · intro hindependent c
    induction c using WellFoundedLT.induction with
    | _ c ih =>
      intro hc
      obtain ⟨v, hne, hv⟩ := dependent_of_pivot_eq_zero ih hc
      exact hne (hindependent v hv)

end State

/-! ## The program -/

section Program

variable {tolerance : K} {M : Matrix (Fin n) (Fin n) K}

theorem columns_eq_some_iff {k : Nat} {s : Matrix (Fin n) (Fin n) K × Matrix (Fin n) (Fin n) K} :
    columns tolerance M k = some s ↔
      s = state M k ∧ ∀ c : Fin n, c.val < k → tolerance ≤ |pivot M c| := by
  induction k generalizing s with
  | zero =>
    rw [columns, state, Option.some.injEq, eq_comm]
    simp
  | succ k ih =>
    rw [columns, Option.bind_eq_some_iff]
    by_cases hk : k < n
    · have hstate : state M (k + 1) = advance ⟨k, hk⟩ (state M k) := state_succ ⟨k, hk⟩
      constructor
      · intro hex
        obtain ⟨t, ht, hstep⟩ := hex
        obtain ⟨rfl, hbefore⟩ := ih.mp ht
        rw [dif_pos hk] at hstep
        dsimp only at hstep
        split at hstep
        · cases hstep
        · next hlarge =>
          cases hstep
          refine ⟨hstate.symm, fun c hc => ?_⟩
          by_cases hck : c.val < k
          · exact hbefore c hck
          · have hlast : c = ⟨k, hk⟩ := by
              apply Fin.ext
              show c.val = k
              omega
            rw [hlast]
            exact not_lt.mp hlarge
      · intro hand
        obtain ⟨rfl, hall⟩ := hand
        refine ⟨state M k, ih.mpr ⟨rfl, fun c hc => hall c (Nat.lt_succ_of_lt hc)⟩, ?_⟩
        rw [dif_pos hk, hstate]
        exact if_neg (not_lt.mpr (hall ⟨k, hk⟩ (Nat.lt_succ_self k)))
    · have hstate : state M (k + 1) = state M k := by rw [state, dif_neg hk]
      have hrange : (∀ c : Fin n, c.val < k + 1 → tolerance ≤ |pivot M c|) ↔
          ∀ c : Fin n, c.val < k → tolerance ≤ |pivot M c| := by
        constructor
        · exact fun h c hc => h c (Nat.lt_succ_of_lt hc)
        · exact fun h c _ => h c (by omega)
      rw [hstate, hrange, ← ih]
      simp [hk]

theorem invert_eq_some_iff {N : Matrix (Fin n) (Fin n) K} :
    invert tolerance M = some N ↔ N = (state M n).2 ∧ ∀ c, tolerance ≤ |pivot M c| := by
  rw [invert, Option.map_eq_some_iff]
  constructor
  · intro hex
    obtain ⟨s, hs, rfl⟩ := hex
    obtain ⟨rfl, hall⟩ := columns_eq_some_iff.mp hs
    exact ⟨rfl, fun c => hall c c.isLt⟩
  · intro hand
    obtain ⟨rfl, hall⟩ := hand
    exact ⟨state M n, columns_eq_some_iff.mpr ⟨rfl, fun c _ => hall c⟩, rfl⟩

theorem invert_eq_none_iff : invert tolerance M = none ↔ ∃ c, |pivot M c| < tolerance := by
  rw [Option.eq_none_iff_forall_ne_some]
  constructor
  · intro h
    by_contra hnone
    rw [not_exists] at hnone
    exact h _ (invert_eq_some_iff.mpr ⟨rfl, fun c => not_lt.mp (hnone c)⟩)
  · intro hex N hN
    obtain ⟨c, hc⟩ := hex
    exact absurd hc (not_lt.mpr ((invert_eq_some_iff.mp hN).2 c))

/-- What the program answers is the inverse. -/
theorem invert_inverse [IsStrictOrderedRing K] (ht : 0 < tolerance) {N : Matrix (Fin n) (Fin n) K}
    (h : invert tolerance M = some N) : N * M = 1 ∧ M * N = 1 := by
  obtain ⟨rfl, hall⟩ := invert_eq_some_iff.mp h
  exact state_inverse fun c => abs_pos.mp (ht.trans_le (hall c))

end Program

end GaussJordan
end IndieWorker
