import IndieWorker.Analysis.Ols
import IndieWorker.Lib.InPlace

/-!
# Gauss-Jordan inversion

`invert` of `src/analysis/regression.rs`, loop by loop, over any ordered field.  The
two matrices are rows of cells that the loops overwrite.
-/

namespace IndieWorker
namespace Analysis
namespace Square

open Matrix InPlace

variable {K : Type} {n : Nat}

/-! ## The cells -/

/-- As many rows as columns. -/
abbrev Rows (K : Type) (n : Nat) : Type := Vector (Vector K n) n

/-- What the cells hold. -/
def toMatrix (rows : Rows K n) : Matrix (Fin n) (Fin n) K := fun i j => rows[i.val][j.val]

theorem toMatrix_swap (a : Rows K n) (c p i j : Fin n) :
    toMatrix (a.swap c.val p.val) i j = toMatrix a (Equiv.swap c p i) j := by
  rw [toMatrix, toMatrix, Vector.getElem_swap, Equiv.swap_apply_def]
  by_cases hc : i = c
  · rw [if_pos (congrArg Fin.val hc), if_pos hc]
  · rw [if_neg fun h => hc (Fin.ext h), if_neg hc]
    by_cases hp : i = p
    · rw [if_pos (congrArg Fin.val hp), if_pos hp]
    · rw [if_neg fun h => hp (Fin.ext h), if_neg hp]

variable [Field K]

def identity : Rows K n := Vector.ofFn fun i => Vector.ofFn fun j => if i = j then 1 else 0

theorem toMatrix_identity : toMatrix (identity : Rows K n) = 1 := by
  ext i j
  rw [toMatrix, identity, Vector.getElem_ofFn, Vector.getElem_ofFn, Matrix.one_apply]

/-- `for value in &mut a[row] { *value /= divisor }` -/
def divideRow (divisor : K) (row : Fin n) (a : Rows K n) : Rows K n :=
  a.set row.val (a[row.val].map (· / divisor))

theorem toMatrix_divideRow (divisor : K) (row : Fin n) (a : Rows K n) (i j : Fin n) :
    toMatrix (divideRow divisor row a) i j =
      if i = row then toMatrix a i j / divisor else toMatrix a i j := by
  rw [divideRow]
  by_cases hi : i = row
  · rw [if_pos hi, hi, toMatrix, Vector.getElem_set_self, Vector.getElem_map, toMatrix]
  · rw [if_neg hi, toMatrix, toMatrix, Vector.getElem_set_ne _ _ fun h => hi (Fin.ext h.symm)]

/-- A matrix whose pivot row is swapped into place and divided. -/
theorem toMatrix_divideRow_swap (a x : Rows K n) (c p i j : Fin n) :
    toMatrix (divideRow (a.swap c.val p.val)[c.val][c.val] c (x.swap c.val p.val)) i j =
      if i = c then toMatrix x p j / toMatrix a p c else toMatrix x (Equiv.swap c p i) j := by
  have hdivisor : (a.swap c.val p.val)[c.val][c.val] = toMatrix a p c := by
    have hcell := toMatrix_swap a c p c c
    rw [Equiv.swap_apply_left] at hcell
    exact hcell
  rw [toMatrix_divideRow, hdivisor, toMatrix_swap]
  by_cases hi : i = c
  · rw [if_pos hi, if_pos hi, hi, Equiv.swap_apply_left]
  · rw [if_neg hi, if_neg hi]

/-- `a[row][k] -= factor * a[column][k]` -/
def subtractAt (factor : K) (row column : Fin n) (a : Rows K n) (k : Fin n) : Rows K n :=
  a.set row.val (a[row.val].set k.val (a[row.val][k.val] - factor * a[column.val][k.val]))

theorem toMatrix_subtractAt (factor : K) (row column : Fin n) (a : Rows K n) (k i j : Fin n) :
    toMatrix (subtractAt factor row column a k) i j =
      if i = row ∧ j = k then toMatrix a i j - factor * toMatrix a column j
      else toMatrix a i j := by
  rw [subtractAt]
  by_cases hi : i = row
  · by_cases hj : j = k
    · rw [if_pos ⟨hi, hj⟩, hi, hj, toMatrix, Vector.getElem_set_self, Vector.getElem_set_self]
      rfl
    · rw [if_neg fun h => hj h.2, hi, toMatrix, Vector.getElem_set_self,
        Vector.getElem_set_ne _ _ fun h => hj (Fin.ext h.symm), toMatrix]
  · rw [if_neg fun h => hi h.1, toMatrix, toMatrix,
      Vector.getElem_set_ne _ _ fun h => hi (Fin.ext h.symm)]

theorem toMatrix_subtractAt_of_ne {row i : Fin n} (hi : i ≠ row) (factor : K) (column : Fin n)
    (a : Rows K n) (k : Fin n) : toMatrix (subtractAt factor row column a k) i = toMatrix a i := by
  funext j
  rw [toMatrix_subtractAt, if_neg fun h => hi h.1]

/-- What the two matrices hold in a row. -/
def rowsAt (s : Rows K n × Rows K n) (i : Fin n) : (Fin n → K) × (Fin n → K) :=
  (toMatrix s.1 i, toMatrix s.2 i)

/-- A row less a multiple of another, in both matrices. -/
def minus (factor : K) (pivot row : (Fin n → K) × (Fin n → K)) : (Fin n → K) × (Fin n → K) :=
  (fun j => row.1 j - factor * pivot.1 j, fun j => row.2 j - factor * pivot.2 j)

/-- The innermost loop, over the cells of a row of both matrices. -/
def subtractRow (factor : K) (row column : Fin n) (s : Rows K n × Rows K n) :
    Rows K n × Rows K n :=
  (List.finRange n).foldl
    (fun s k => (subtractAt factor row column s.1 k, subtractAt factor row column s.2 k)) s

/-- The innermost loop writes one cell of the row a turn, in both matrices. -/
theorem writes_subtractAt {row column : Fin n} (hne : row ≠ column) (factor : K)
    (s₀ : Rows K n × Rows K n) :
    Writes (fun s k => (toMatrix s.1 row k, toMatrix s.2 row k))
      (fun s => ∀ i, i ≠ row → rowsAt s i = rowsAt s₀ i)
      (fun k cell => (cell.1 - factor * toMatrix s₀.1 column k,
        cell.2 - factor * toMatrix s₀.2 column k))
      (fun s k =>
        (subtractAt factor row column s.1 k, subtractAt factor row column s.2 k)) where
  keeps s k hs := by
    intro i hi
    rw [← hs i hi, rowsAt, rowsAt, toMatrix_subtractAt_of_ne hi, toMatrix_subtractAt_of_ne hi]
  self s k hs := by
    have hpivot := hs column hne.symm
    rw [rowsAt, rowsAt, Prod.mk.injEq] at hpivot
    rw [toMatrix_subtractAt, toMatrix_subtractAt, if_pos ⟨rfl, rfl⟩, if_pos ⟨rfl, rfl⟩, hpivot.1,
      hpivot.2]
  other s k j _ hj := by
    rw [toMatrix_subtractAt, toMatrix_subtractAt, if_neg fun h => hj h.2,
      if_neg fun h => hj h.2]

theorem rowsAt_subtractRow {row column : Fin n} (hne : row ≠ column) (factor : K)
    (s : Rows K n × Rows K n) (i : Fin n) :
    rowsAt (subtractRow factor row column s) i =
      if i = row then minus factor (rowsAt s column) (rowsAt s row) else rowsAt s i := by
  have hwrites := writes_subtractAt hne factor s
  by_cases hi : i = row
  · rw [if_pos hi, hi]
    have hcell := fun k => hwrites.get_foldl_of_mem (List.nodup_finRange n)
      (List.mem_finRange k) fun _ _ => rfl
    exact Prod.ext (funext fun k => congrArg Prod.fst (hcell k))
      (funext fun k => congrArg Prod.snd (hcell k))
  · rw [if_neg hi]
    exact hwrites.keeps_foldl _ (fun _ _ => rfl) i hi

variable [LinearOrder K]

/-! ## The loops -/

/-- The row with the largest entry of a column, the last of those that have it. -/
def pivotOf (a : Rows K n) (column : Fin n) : Fin n :=
  GaussJordan.lastLargest (fun row => |a[row.val][column.val]|) column

/-- The elimination of a column in a row of both matrices. -/
def clearRow (column : Fin n) (s : Rows K n × Rows K n) (row : Fin n) : Rows K n × Rows K n :=
  if row = column then s
  else
    let factor := s.1[row.val][column.val]
    if factor = 0 then s
    else subtractRow factor row column s

/-- The swap of the pivot row into place, its division and the loop over the rows. -/
def eliminate (column pivot : Fin n) (s : Rows K n × Rows K n) : Rows K n × Rows K n :=
  let a := s.1.swap column.val pivot.val
  let inv := s.2.swap column.val pivot.val
  let divisor := a[column.val][column.val]
  (List.finRange n).foldl (clearRow column)
    (divideRow divisor column a, divideRow divisor column inv)

/-- A turn of the outer loop. -/
def processColumn (s : Rows K n × Rows K n) (column : Fin n) : Option (Rows K n × Rows K n) :=
  -- a pivot is always found, since the column itself is a candidate
  let pivot := pivotOf s.1 column
  if |s.1[pivot.val][column.val]| < 1e-12 then none
  else some (eliminate column pivot s)

/-- Gauss-Jordan inversion with partial pivoting. -/
def invert (matrix : Rows K n) : Option (Rows K n) :=
  ((List.finRange n).foldlM processColumn (matrix, identity)).map Prod.snd

/-! ## A turn -/

theorem rowsAt_clearRow {row column : Fin n} (s : Rows K n × Rows K n) (i : Fin n) :
    rowsAt (clearRow column s row) i =
      if i = row ∧ row ≠ column then
        minus (toMatrix s.1 row column) (rowsAt s column) (rowsAt s row)
      else rowsAt s i := by
  rw [clearRow]
  by_cases hrow : row = column
  · rw [if_pos hrow, if_neg fun h => h.2 hrow]
  · rw [if_neg hrow]
    dsimp only
    split
    -- a factor of zero takes nothing away
    · next hzero =>
      have hfactor : toMatrix s.1 row column = 0 := hzero
      by_cases hi : i = row
      · rw [if_pos ⟨hi, hrow⟩, hfactor, hi]
        simp [minus]
      · rw [if_neg fun h => hi h.1]
    · rw [rowsAt_subtractRow hrow]
      by_cases hi : i = row
      · rw [if_pos hi, if_pos ⟨hi, hrow⟩, toMatrix]
      · rw [if_neg hi, if_neg fun h => hi h.1]

/-- The loop over the rows writes one row a turn, and never the pivot row. -/
theorem writes_clearRow (column : Fin n) (pivot : (Fin n → K) × (Fin n → K)) :
    Writes rowsAt (fun s => rowsAt s column = pivot)
      (fun i row => if i = column then row else minus (row.1 column) pivot row)
      (clearRow (K := K) column) where
  keeps s i hs := by
    rw [rowsAt_clearRow, if_neg fun h => h.2 h.1.symm]
    exact hs
  self s i hs := by
    rw [rowsAt_clearRow]
    by_cases hi : i = column
    · rw [if_neg fun h => h.2 hi, if_pos hi]
    · rw [if_pos ⟨rfl, hi⟩, if_neg hi, hs]
      rfl
  other s i j _ hj := by
    rw [rowsAt_clearRow, if_neg fun h => hj h.1]

/-- The pivot row swapped into place and divided by the pivot of the first matrix. -/
def started (c p : Fin n) (a x : Rows K n) : Rows K n :=
  divideRow (a.swap c.val p.val)[c.val][c.val] c (x.swap c.val p.val)

/-- The elimination of a column, cell by cell. -/
theorem turn_eq_started (c p : Fin n) (a x : Rows K n) (i j : Fin n) :
    GaussJordan.turn (toMatrix a) c p (toMatrix x) i j =
      if i = c then toMatrix (started c p a x) i j
      else toMatrix (started c p a x) i j -
        toMatrix (started c p a a) i c * toMatrix (started c p a x) c j := by
  have hcell : ∀ x : Rows K n, ∀ i j, toMatrix (started c p a x) i j =
      if i = c then toMatrix x p j / toMatrix a p c else toMatrix x (Equiv.swap c p i) j :=
    fun x => toMatrix_divideRow_swap a x c p
  by_cases hi : i = c
  · rw [if_pos hi, hi, hcell, if_pos rfl, GaussJordan.turn_self]
  · rw [if_neg hi, hcell x i, hcell a i, hcell x c, if_neg hi, if_neg hi, if_pos rfl,
      GaussJordan.turn_other hi]

/-- A turn acts on both matrices as the elimination does. -/
theorem rowsAt_eliminate (c p : Fin n) (s : Rows K n × Rows K n) (i : Fin n) :
    rowsAt (eliminate c p s) i =
      (GaussJordan.turn (toMatrix s.1) c p (toMatrix s.1) i,
        GaussJordan.turn (toMatrix s.1) c p (toMatrix s.2) i) := by
  have hloop := (writes_clearRow c (rowsAt (started c p s.1 s.1, started c p s.1 s.2) c)
    ).get_foldl_of_mem (List.nodup_finRange n) (List.mem_finRange i) rfl
  refine hloop.trans ?_
  by_cases hi : i = c
  · rw [if_pos hi]
    refine Prod.ext (funext fun j => ?_) (funext fun j => ?_)
    · exact ((turn_eq_started c p s.1 s.1 i j).trans (if_pos hi)).symm
    · exact ((turn_eq_started c p s.1 s.2 i j).trans (if_pos hi)).symm
  · rw [if_neg hi]
    refine Prod.ext (funext fun j => ?_) (funext fun j => ?_)
    · exact ((turn_eq_started c p s.1 s.1 i j).trans (if_neg hi)).symm
    · exact ((turn_eq_started c p s.1 s.2 i j).trans (if_neg hi)).symm

/-! ## The run -/

/-- What the cells of both matrices hold. -/
def matrices (s : Rows K n × Rows K n) :
    Matrix (Fin n) (Fin n) K × Matrix (Fin n) (Fin n) K :=
  (toMatrix s.1, toMatrix s.2)

theorem processColumn_eq (s : Rows K n × Rows K n) (c : Fin n) :
    (processColumn s c).map matrices =
      if |toMatrix s.1 (GaussJordan.pivotRow (toMatrix s.1) c) c| < 1e-12 then none
      else some (GaussJordan.advance c (matrices s)) := by
  by_cases hsmall : |toMatrix s.1 (GaussJordan.pivotRow (toMatrix s.1) c) c| < 1e-12
  · rw [if_pos hsmall, processColumn]
    exact congrArg _ (if_pos hsmall)
  · rw [if_neg hsmall, processColumn]
    refine (congrArg _ (if_neg hsmall)).trans (congrArg some ?_)
    exact Prod.ext (funext fun i => congrArg Prod.fst (rowsAt_eliminate c _ s i))
      (funext fun i => congrArg Prod.snd (rowsAt_eliminate c _ s i))

/-- The first turns of the outer loop are the first columns of the elimination. -/
theorem foldlM_processColumn (matrix : Rows K n) {k : Nat} (hk : k ≤ n) :
    (((List.finRange n).take k).foldlM processColumn (matrix, identity)).map matrices =
      GaussJordan.columns 1e-12 (toMatrix matrix) k := by
  induction k with
  | zero =>
    rw [List.take_zero, GaussJordan.columns]
    exact congrArg some (Prod.ext rfl toMatrix_identity)
  | succ k ih =>
    have hlt : k < (List.finRange n).length := by rw [List.length_finRange]; omega
    rw [List.take_succ_eq_append_getElem hlt, List.foldlM_append, GaussJordan.columns,
      ← ih (by omega), List.getElem_finRange]
    cases ((List.finRange n).take k).foldlM processColumn (matrix, identity) with
    | none => rfl
    | some s =>
      show ((processColumn s ⟨k, hk⟩).bind some).map matrices = _
      rw [Option.bind_fun_some, processColumn_eq, Option.map_some, Option.bind_some,
        dif_pos (Nat.lt_of_succ_le hk)]
      rfl

variable [IsStrictOrderedRing K]

/-- The loops compute what the elimination computes. -/
theorem invert_eq (matrix : Rows K n) :
    (invert matrix).map toMatrix = Samples.invert (toMatrix matrix) := by
  have htolerance : (1 / 10 ^ 12 : K) = 1e-12 := by norm_num
  have hrun := foldlM_processColumn matrix le_rfl
  rw [List.take_of_length_le (List.length_finRange).le] at hrun
  rw [invert, Samples.invert, GaussJordan.invert, htolerance, ← hrun, Option.map_map,
    Option.map_map]
  rfl

theorem invert_inverse {matrix inverse : Rows K n} (h : invert matrix = some inverse) :
    toMatrix matrix * toMatrix inverse = 1 ∧ toMatrix inverse * toMatrix matrix = 1 := by
  have htolerance : (0 : K) < 1 / 10 ^ 12 := by positivity
  have hexact : Samples.invert (toMatrix matrix) = some (toMatrix inverse) := by
    rw [← invert_eq, h, Option.map_some]
  exact (GaussJordan.invert_inverse htolerance hexact).symm

theorem invert_of_singular {matrix : Rows K n} (h : (toMatrix matrix).det = 0) :
    invert matrix = none := by
  cases hinverse : invert matrix with
  | none => rfl
  | some inverse =>
    have hdet := congrArg det (invert_inverse hinverse).1
    rw [det_mul, h, zero_mul, det_one] at hdet
    exact absurd hdet zero_ne_one

/-- The inverse of a matrix of any size, and none of a singular one. -/
theorem invert_correct (n : Nat) (matrix : Rows ℚ n) :
    (∀ inverse, invert matrix = some inverse →
      toMatrix matrix * toMatrix inverse = 1 ∧ toMatrix inverse * toMatrix matrix = 1) ∧
      ((toMatrix matrix).det = 0 → invert matrix = none) :=
  ⟨fun _ => invert_inverse, invert_of_singular⟩

/-- A matrix whose first pivot stands in the last row, and one whose rows are
multiples. -/
theorem invert_correct_two :
    let matrix : Rows ℚ 2 := #v[#v[0, 2], #v[1, 1]]
    let inverse : Rows ℚ 2 := #v[#v[-1 / 2, 1], #v[1 / 2, 0]]
    (invert matrix = some inverse ∧ toMatrix matrix * toMatrix inverse = 1 ∧
      toMatrix inverse * toMatrix matrix = 1) ∧
      invert (#v[#v[1, 2], #v[2, 4]] : Rows ℚ 2) = none := by
  intro matrix inverse
  have hinverse : invert matrix = some inverse := by decide +kernel
  have hsingular : (toMatrix (#v[#v[1, 2], #v[2, 4]] : Rows ℚ 2)).det = 0 := by
    rw [det_fin_two]
    decide +kernel
  exact ⟨⟨hinverse, (invert_correct 2 matrix).1 inverse hinverse⟩,
    (invert_correct 2 _).2 hsingular⟩

end Square
end Analysis
end IndieWorker
