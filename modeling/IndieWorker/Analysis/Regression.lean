import IndieWorker.Lib.Nan
import IndieWorker.Lib.SortBy
import IndieWorker.Lib.StepUp
import Mathlib.Data.List.GetD
import Mathlib.Data.Rat.Cast.Order

/-!
# Multiple testing

`benjamini_hochberg` of `src/analysis/regression.rs`, over numbers of any kind.  Its
results are about exact rationals, and go over to rationals with NaN where none is.
-/

namespace IndieWorker
namespace Analysis

open StepUp SortBy PartialCmp

section Program

variable {ν : Type} [Zero ν]

/-- The value at an index. -/
def valueAt (p : List ν) (index : Nat) : ν := p.getD index 0

/-- The indices of the values, by increasing value.  The sort is stable. -/
def sortedOrder [PartialCmp ν] (p : List ν) : List Nat :=
  sortBy (fun a b => cmpOrEqual (valueAt p a) (valueAt p b)) (List.range p.length)

variable [One ν] [NatCast ν] [Mul ν] [Div ν] [Min ν]

/-- One turn of the loop: the adjusted values so far and the running minimum,
which is infinite at the start. -/
def adjustRank (p : List ν) (order : List Nat) (state : List ν × Option ν) (rank : Nat) :
    List ν × Option ν :=
  let index := order.getD rank 0
  let candidate := valueAt p index * (p.length : ν) / ((rank + 1 : Nat) : ν)
  let running :=
    match state.2 with
    | none => min candidate 1
    | some running => min (min running candidate) 1
  (state.1.set index running, some running)

/-- The adjusted value of each p-value, in the original order.  The loop walks from
the largest p-value downwards. -/
def benjaminiHochberg [PartialCmp ν] (p : List ν) : List ν :=
  if p.length = 0 then []
  else
    ((List.range p.length).reverse.foldl (adjustRank p (sortedOrder p))
      (List.replicate p.length 0, none)).1

/-- As many values come out as go in, whatever the numbers are. -/
theorem length_benjaminiHochberg [PartialCmp ν] (p : List ν) :
    (benjaminiHochberg p).length = p.length := by
  have hfold : ∀ (order ranks : List Nat) (state : List ν × Option ν),
      (ranks.foldl (adjustRank p order) state).1.length = state.1.length := by
    intro order ranks
    induction ranks with
    | nil => exact fun _ => rfl
    | cons rank ranks ih =>
      intro state
      rw [List.foldl_cons, ih, adjustRank, List.length_set]
  unfold benjaminiHochberg
  by_cases hempty : p.length = 0
  · rw [if_pos hempty, hempty]
    rfl
  · rw [if_neg hempty, hfold, List.length_replicate]

end Program

/-! ## The sorted order -/

/-- The value at a rank. -/
def ranked (p : List ℚ) (rank : Nat) : ℚ := valueAt p ((sortedOrder p).getD rank 0)

theorem sortedOrder_perm (p : List ℚ) : (sortedOrder p).Perm (List.range p.length) :=
  sortBy_perm _ _

theorem length_sortedOrder (p : List ℚ) : (sortedOrder p).length = p.length := by
  rw [(sortedOrder_perm p).length_eq, List.length_range]

theorem sortedOrder_nodup (p : List ℚ) : (sortedOrder p).Nodup :=
  (sortedOrder_perm p).nodup_iff.mpr List.nodup_range

theorem sortedOrder_pairwise (p : List ℚ) :
    (sortedOrder p).Pairwise fun a b => valueAt p a ≤ valueAt p b := by
  have hsorted : (sortedOrder p).Pairwise fun a b =>
      (compareOn (valueAt p) a b).isLE := pairwise_sortBy _
  exact hsorted.imp fun h => compare_le_iff_le.mp (Ordering.ne_gt_iff_isLE.mpr h)

theorem mem_sortedOrder {p : List ℚ} {i : Nat} : i ∈ sortedOrder p ↔ i < p.length := by
  rw [(sortedOrder_perm p).mem_iff, List.mem_range]

theorem getD_sortedOrder_lt {p : List ℚ} {k : Nat} (hk : k < p.length) :
    (sortedOrder p).getD k 0 < p.length := by
  have hk' : k < (sortedOrder p).length := by rw [length_sortedOrder]; exact hk
  rw [List.getD_eq_getElem _ _ hk']
  exact mem_sortedOrder.mp (List.getElem_mem hk')

/-- Every index has a rank. -/
theorem exists_rank {p : List ℚ} {i : Nat} (hi : i < p.length) :
    ∃ k < p.length, (sortedOrder p).getD k 0 = i := by
  obtain ⟨k, hk, hget⟩ := List.getElem_of_mem (mem_sortedOrder.mpr hi)
  refine ⟨k, by rwa [length_sortedOrder] at hk, ?_⟩
  rw [List.getD_eq_getElem _ _ hk, hget]

theorem getD_sortedOrder_inj {p : List ℚ} {j k : Nat} (hj : j < p.length) (hk : k < p.length)
    (h : (sortedOrder p).getD j 0 = (sortedOrder p).getD k 0) : j = k := by
  rw [← length_sortedOrder p] at hj hk
  rw [List.getD_eq_getElem _ _ hj, List.getD_eq_getElem _ _ hk] at h
  exact (sortedOrder_nodup p).getElem_inj_iff.mp h

/-- The values of the p-values at their ranks are sorted. -/
theorem sorted_ranked {p : List ℚ} (hp : ∀ v ∈ p, 0 ≤ v ∧ v ≤ 1) :
    StepUp.Sorted (ranked p) p.length := by
  have hmem : ∀ j < p.length, ranked p j ∈ p := by
    intro j hj
    unfold ranked valueAt
    rw [List.getD_eq_getElem _ _ (getD_sortedOrder_lt hj)]
    exact List.getElem_mem _
  constructor
  · exact fun j hj => (hp _ (hmem j hj)).1
  · exact fun j hj => (hp _ (hmem j hj)).2
  · intro i j hij hj
    by_cases heq : i = j
    · rw [heq]
    · have hi' : i < (sortedOrder p).length := by rw [length_sortedOrder]; omega
      have hj' : j < (sortedOrder p).length := by rw [length_sortedOrder]; exact hj
      have hle := List.pairwise_iff_getElem.mp (sortedOrder_pairwise p) i j hi' hj' (by omega)
      unfold ranked
      rw [List.getD_eq_getElem _ _ hi', List.getD_eq_getElem _ _ hj']
      exact hle

/-! ## The loop -/

/-- What the loop has done when the ranks from `k` on are walked. -/
structure Walked (p : List ℚ) (k : Nat) (state : List ℚ × Option ℚ) : Prop where
  length : state.1.length = p.length
  running : IsLeast (above (ranked p) p.length k) (state.2.getD 1)
  adjusted : ∀ j, k ≤ j → j < p.length →
    IsLeast (above (ranked p) p.length j) (valueAt state.1 ((sortedOrder p).getD j 0))

theorem walked_start (p : List ℚ) : Walked p p.length (List.replicate p.length 0, none) :=
  ⟨List.length_replicate, isLeast_above_top _ _, fun j hge hlt => absurd hge (by omega)⟩

/-- The running minimum after a rank. -/
theorem running_adjustRank (p : List ℚ) (state : List ℚ × Option ℚ) (k : Nat) :
    (adjustRank p (sortedOrder p) state k).2.getD 1 =
      min (min (state.2.getD 1) (candidate (ranked p) p.length k)) 1 := by
  have hcandidate : valueAt p ((sortedOrder p).getD k 0) * (p.length : ℚ) / ((k + 1 : Nat) : ℚ) =
      candidate (ranked p) p.length k := by
    rw [Nat.cast_succ]
    rfl
  unfold adjustRank
  dsimp only
  rw [hcandidate]
  rcases state with ⟨adjusted, _ | running⟩
  · show min (candidate (ranked p) p.length k) 1 = min (min 1 (candidate (ranked p) p.length k)) 1
    rw [min_comm 1, min_assoc, min_self]
  · rfl

theorem valueAt_set_self {adjusted : List ℚ} {i : Nat} (hi : i < adjusted.length) (v : ℚ) :
    valueAt (adjusted.set i v) i = v := by
  simp [valueAt, hi]

theorem valueAt_set_ne {adjusted : List ℚ} {i j : Nat} (hij : i ≠ j) (v : ℚ) :
    valueAt (adjusted.set i v) j = valueAt adjusted j := by
  simp [valueAt, List.getElem?_set_ne hij]

theorem adjusted_adjustRank (p : List ℚ) (state : List ℚ × Option ℚ) (k : Nat) :
    (adjustRank p (sortedOrder p) state k).1 =
      state.1.set ((sortedOrder p).getD k 0) ((adjustRank p (sortedOrder p) state k).2.getD 1) :=
  rfl

/-- One turn of the loop walks one rank. -/
theorem Walked.adjustRank {p : List ℚ} {k : Nat} {state : List ℚ × Option ℚ}
    (h : Walked p (k + 1) state) (hk : k < p.length) :
    Walked p k (adjustRank p (sortedOrder p) state k) := by
  have hrunning : IsLeast (above (ranked p) p.length k)
      ((Analysis.adjustRank p (sortedOrder p) state k).2.getD 1) := by
    rw [running_adjustRank]
    exact isLeast_above_step hk h.running
  refine ⟨?_, hrunning, fun j hge hlt => ?_⟩
  · rw [adjusted_adjustRank, List.length_set, h.length]
  · rw [adjusted_adjustRank]
    by_cases hj : j = k
    · subst hj
      rw [valueAt_set_self (by rw [h.length]; exact getD_sortedOrder_lt hk)]
      exact hrunning
    · have hne : (sortedOrder p).getD k 0 ≠ (sortedOrder p).getD j 0 :=
        fun heq => hj (getD_sortedOrder_inj hk hlt heq).symm
      rw [valueAt_set_ne hne]
      exact h.adjusted j (by omega) hlt

theorem Walked.foldl {p : List ℚ} {k : Nat} (hk : k ≤ p.length) {state : List ℚ × Option ℚ}
    (h : Walked p k state) :
    Walked p 0 ((List.range k).reverse.foldl (Analysis.adjustRank p (sortedOrder p)) state) := by
  induction k generalizing state with
  | zero => exact h
  | succ k ih =>
    rw [List.range_succ, List.reverse_append, List.reverse_singleton, List.singleton_append,
      List.foldl_cons]
    exact ih (by omega) (h.adjustRank hk)

theorem walked_benjaminiHochberg (p : List ℚ) :
    ∃ running, Walked p 0 (benjaminiHochberg p, running) := by
  unfold benjaminiHochberg
  by_cases hempty : p.length = 0
  · rw [if_pos hempty]
    refine ⟨none, hempty.symm, ?_, fun j _ hlt => absurd hlt (by omega)⟩
    have htop := isLeast_above_top (ranked p) p.length
    rwa [hempty] at htop ⊢
  · rw [if_neg hempty]
    exact ⟨_, (walked_start p).foldl le_rfl⟩

/-- The adjusted value at a rank. -/
theorem isLeast_benjaminiHochberg (p : List ℚ) {k : Nat} (hk : k < p.length) :
    IsLeast (above (ranked p) p.length k)
      (valueAt (benjaminiHochberg p) ((sortedOrder p).getD k 0)) := by
  obtain ⟨_, h⟩ := walked_benjaminiHochberg p
  exact h.adjusted k k.zero_le hk

/-! ## What an adjusted value depends on -/

theorem ranked_getD {p : List ℚ} {i k : Nat} (h : (sortedOrder p).getD k 0 = i) :
    ranked p k = valueAt p i := by
  rw [ranked, h]

/-- The adjusted value of an index, from its rank. -/
theorem exists_isLeast {p : List ℚ} {i : Nat} (hi : i < p.length) :
    ∃ k < p.length, (sortedOrder p).getD k 0 = i ∧
      IsLeast (above (ranked p) p.length k) (valueAt (benjaminiHochberg p) i) := by
  obtain ⟨k, hk, hrank⟩ := exists_rank hi
  have hleast := isLeast_benjaminiHochberg p hk
  rw [hrank] at hleast
  exact ⟨k, hk, hrank, hleast⟩

theorem map_valueAt_range (p : List ℚ) : (List.range p.length).map (valueAt p) = p := by
  apply List.ext_getElem
  · simp
  · intro i h₁ h₂
    rw [List.getElem_map, List.getElem_range, valueAt, List.getD_eq_getElem _ _ h₂]

theorem sortedValues_perm (p : List ℚ) : ((sortedOrder p).map (valueAt p)).Perm p := by
  have hmap := (sortedOrder_perm p).map (valueAt p)
  rwa [map_valueAt_range] at hmap

/-- Rearranged values have the same values at their ranks. -/
theorem ranked_perm {p p' : List ℚ} (h : p.Perm p') {k : Nat} (hk : k < p.length) :
    ranked p k = ranked p' k := by
  have hvalues : (sortedOrder p).map (valueAt p) = (sortedOrder p').map (valueAt p') := by
    refine List.Perm.eq_of_pairwise (fun _ _ _ _ => le_antisymm)
      (List.pairwise_map.mpr (sortedOrder_pairwise p))
      (List.pairwise_map.mpr (sortedOrder_pairwise p')) ?_
    exact (sortedValues_perm p).trans (h.trans (sortedValues_perm p').symm)
  have hk₁ : k < (sortedOrder p).length := by rw [length_sortedOrder]; exact hk
  have hk₂ : k < (sortedOrder p').length := by rw [length_sortedOrder, ← h.length_eq]; exact hk
  unfold ranked
  rw [List.getD_eq_getElem _ _ hk₁, List.getD_eq_getElem _ _ hk₂]
  have hget := List.getElem_of_eq hvalues (by rw [List.length_map]; exact hk₁)
  rwa [List.getElem_map, List.getElem_map] at hget

/-- Equal p-values have equal adjusted values, wherever they stand in two
arrangements of the same values. -/
theorem adjusted_eq {p p' : List ℚ} (hp : ∀ v ∈ p, 0 ≤ v ∧ v ≤ 1) (hperm : p.Perm p') {i j : Nat}
    (hi : i < p.length) (hj : j < p'.length) (hij : valueAt p i = valueAt p' j) :
    valueAt (benjaminiHochberg p) i = valueAt (benjaminiHochberg p') j := by
  obtain ⟨k, hk, hkrank, hkleast⟩ := exists_isLeast hi
  obtain ⟨l, hl, hlrank, hlleast⟩ := exists_isLeast hj
  rw [← hperm.length_eq] at hl hlleast
  rw [← above_congr (fun j hj => ranked_perm hperm hj)] at hlleast
  have hvalue : ranked p k = ranked p l := by
    rw [ranked_perm hperm hl, ranked_getD hkrank, ranked_getD hlrank, hij]
  exact value_eq_value (sorted_ranked hp) hk hl hvalue hkleast hlleast

/-- The adjusted value of a p-value. -/
def qValue (p : List ℚ) (v : ℚ) : ℚ := valueAt (benjaminiHochberg p) (p.idxOf v)

theorem valueAt_idxOf {p : List ℚ} {v : ℚ} (hv : v ∈ p) : valueAt p (p.idxOf v) = v := by
  rw [valueAt, List.getD_eq_getElem _ _ (List.idxOf_lt_length_of_mem hv), List.getElem_idxOf]

theorem valueAt_mem {p : List ℚ} {i : Nat} (hi : i < p.length) : valueAt p i ∈ p := by
  rw [valueAt, List.getD_eq_getElem _ _ hi]
  exact List.getElem_mem hi

theorem qValue_valueAt {p : List ℚ} (hp : ∀ v ∈ p, 0 ≤ v ∧ v ≤ 1) {i : Nat} (hi : i < p.length) :
    qValue p (valueAt p i) = valueAt (benjaminiHochberg p) i := by
  have hmem := valueAt_mem hi
  exact adjusted_eq hp (List.Perm.refl p) (List.idxOf_lt_length_of_mem hmem) hi
    (valueAt_idxOf hmem)

theorem qValue_perm {p p' : List ℚ} (hp : ∀ v ∈ p, 0 ≤ v ∧ v ≤ 1) (hperm : p.Perm p') {v : ℚ}
    (hv : v ∈ p) : qValue p v = qValue p' v := by
  have hv' : v ∈ p' := hperm.mem_iff.mp hv
  exact adjusted_eq hp hperm (List.idxOf_lt_length_of_mem hv) (List.idxOf_lt_length_of_mem hv')
    (by rw [valueAt_idxOf hv, valueAt_idxOf hv'])

/-- Adjustment maps the p-values one by one. -/
theorem benjaminiHochberg_eq_map {p : List ℚ} (hp : ∀ v ∈ p, 0 ≤ v ∧ v ≤ 1) :
    benjaminiHochberg p = p.map (qValue p) := by
  apply List.ext_getElem
  · rw [length_benjaminiHochberg, List.length_map]
  · intro i h₁ h₂
    have hi : i < p.length := by rwa [length_benjaminiHochberg] at h₁
    have hvalue := qValue_valueAt hp hi
    rw [valueAt, valueAt, List.getD_eq_getElem _ _ hi, List.getD_eq_getElem _ _ h₁] at hvalue
    rw [List.getElem_map, hvalue]

theorem benjaminiHochberg_rearranged {p : List ℚ} (hp : ∀ v ∈ p, 0 ≤ v ∧ v ≤ 1)
    {indices : List Nat} (h : indices.Perm (List.range p.length)) :
    benjaminiHochberg (indices.map (valueAt p)) =
      indices.map (valueAt (benjaminiHochberg p)) := by
  have hperm : (indices.map (valueAt p)).Perm p := by
    have hmap := h.map (valueAt p)
    rwa [map_valueAt_range] at hmap
  have hp' : ∀ v ∈ indices.map (valueAt p), 0 ≤ v ∧ v ≤ 1 :=
    fun v hv => hp v (hperm.mem_iff.mp hv)
  rw [benjaminiHochberg_eq_map hp', List.map_map]
  apply List.map_congr_left
  intro i hi
  have hlt : i < p.length := List.mem_range.mp (h.mem_iff.mp hi)
  show qValue _ (valueAt p i) = _
  rw [qValue_perm hp' hperm (List.mem_map_of_mem hi), qValue_valueAt hp hlt]

/-! ## The step-up rule -/

theorem mem_take_sortedOrder {p : List ℚ} {i k n : Nat} (hk : k < p.length)
    (hrank : (sortedOrder p).getD k 0 = i) : i ∈ (sortedOrder p).take n ↔ k < n := by
  have hk' : k < (sortedOrder p).length := by rw [length_sortedOrder]; exact hk
  rw [List.mem_take_iff_getElem]
  constructor
  · intro ⟨j, hj, hget⟩
    have hj' : j < (sortedOrder p).length := by omega
    have hsame : j = k := by
      apply (sortedOrder_nodup p).getElem_inj_iff.mp
      rw [hget, ← hrank, List.getD_eq_getElem _ _ hk']
    omega
  · intro hkn
    exact ⟨k, by omega, by rw [← hrank, List.getD_eq_getElem _ _ hk']⟩

/-- `benjaminiHochberg` is the step-up procedure: an adjusted value is the least of
one and the candidates at its rank and above, and those within a rate belong to the
p-values that the step-up rule rejects at it. -/
theorem benjaminiHochberg_exact {p : List ℚ} (hp : ∀ v ∈ p, 0 ≤ v ∧ v ≤ 1) :
    (sortedOrder p).Perm (List.range p.length) ∧
    (sortedOrder p).Pairwise (fun a b => valueAt p a ≤ valueAt p b) ∧
    (benjaminiHochberg p).length = p.length ∧
    (∀ k < p.length, IsLeast
      {x | x = 1 ∨ ∃ j, k ≤ j ∧ j < p.length ∧
        x = valueAt p ((sortedOrder p).getD j 0) * p.length / (j + 1)}
      (valueAt (benjaminiHochberg p) ((sortedOrder p).getD k 0))) ∧
    (∀ i < p.length, valueAt p i ≤ valueAt (benjaminiHochberg p) i ∧
      valueAt (benjaminiHochberg p) i ≤ 1) ∧
    (∀ i < p.length, ∀ j < p.length, valueAt p i ≤ valueAt p j →
      valueAt (benjaminiHochberg p) i ≤ valueAt (benjaminiHochberg p) j) ∧
    (∀ indices : List Nat, indices.Perm (List.range p.length) →
      benjaminiHochberg (indices.map (valueAt p)) =
        indices.map (valueAt (benjaminiHochberg p))) ∧
    (∀ rate, ∀ i < p.length, valueAt (benjaminiHochberg p) i ≤ rate ↔
      i ∈ (sortedOrder p).take (Nat.findGreatest (fun k => 0 < k ∧
        valueAt p ((sortedOrder p).getD (k - 1) 0) ≤ rate * k / p.length) p.length)) := by
  have hsorted := sorted_ranked hp
  refine ⟨sortedOrder_perm p, sortedOrder_pairwise p, length_benjaminiHochberg p,
    fun k hk => isLeast_benjaminiHochberg p hk, fun i hi => ?_, fun i hi j hj hij => ?_,
    fun indices h => benjaminiHochberg_rearranged hp h, fun rate i hi => ?_⟩
  · obtain ⟨k, hk, hrank, hleast⟩ := exists_isLeast hi
    rw [← ranked_getD hrank]
    exact ⟨le_value hsorted hk hleast, value_le_one hleast⟩
  · obtain ⟨k, hk, hkrank, hkleast⟩ := exists_isLeast hi
    obtain ⟨l, _, hlrank, hlleast⟩ := exists_isLeast hj
    rw [← ranked_getD hkrank, ← ranked_getD hlrank] at hij
    exact value_le_value hsorted hk hij hkleast hlleast
  · obtain ⟨k, hk, hrank, hleast⟩ := exists_isLeast hi
    rw [value_le_iff hsorted hk hleast rate, mem_take_sortedOrder hk hrank]
    rfl

/-! ## With NaN -/

theorem valueAt_map_number (p : List ℚ) (i : Nat) :
    valueAt (p.map Nan.number) i = .number (valueAt p i) := by
  rw [valueAt, valueAt, List.getD_eq_getElem?_getD, List.getD_eq_getElem?_getD,
    List.getElem?_map]
  cases p[i]? <;> rfl

/-- Where all p-values are numbers, they are adjusted as numbers. -/
theorem benjaminiHochberg_map_number (p : List ℚ) :
    benjaminiHochberg (p.map Nan.number) = (benjaminiHochberg p).map Nan.number := by
  have horder : sortedOrder (p.map Nan.number) = sortedOrder p := by
    unfold sortedOrder
    rw [List.length_map]
    refine sortBy_congr fun a _ b _ => ?_
    rw [valueAt_map_number, valueAt_map_number]
    rfl
  have hturn : ∀ (state : List ℚ × Option ℚ) (rank : Nat),
      adjustRank (p.map Nan.number) (sortedOrder p)
          (state.1.map Nan.number, state.2.map Nan.number) rank =
        ((adjustRank p (sortedOrder p) state rank).1.map Nan.number,
          (adjustRank p (sortedOrder p) state rank).2.map Nan.number) := by
    intro state rank
    unfold adjustRank
    dsimp only
    rw [valueAt_map_number, List.length_map, List.map_set]
    rcases state with ⟨adjusted, _ | running⟩
    · rfl
    · rfl
  have hfold : ∀ (ranks : List Nat) (state : List ℚ × Option ℚ),
      ranks.foldl (adjustRank (p.map Nan.number) (sortedOrder p))
          (state.1.map Nan.number, state.2.map Nan.number) =
        ((ranks.foldl (adjustRank p (sortedOrder p)) state).1.map Nan.number,
          (ranks.foldl (adjustRank p (sortedOrder p)) state).2.map Nan.number) := by
    intro ranks
    induction ranks with
    | nil => exact fun _ => rfl
    | cons rank ranks ih =>
      intro state
      rw [List.foldl_cons, List.foldl_cons, hturn, ih]
  unfold benjaminiHochberg
  rw [List.length_map, horder]
  by_cases hempty : p.length = 0
  · rw [if_pos hempty, if_pos hempty]
    rfl
  · rw [if_neg hempty, if_neg hempty]
    have hstart := hfold (List.range p.length).reverse (List.replicate p.length 0, none)
    rw [List.map_replicate] at hstart
    exact congrArg Prod.fst hstart

/-- Four p-values, two of them equal. -/
def tied : List ℚ := [39 / 1000, 1 / 1000, 39 / 1000, 1 / 2]

theorem benjaminiHochberg_exact_of_tied :
    benjaminiHochberg tied = [13 / 250, 1 / 250, 13 / 250, 1 / 2] ∧
      benjaminiHochberg ([2, 3, 1, 0].map (valueAt tied)) =
        [2, 3, 1, 0].map (valueAt (benjaminiHochberg tied)) := by
  have hp : ∀ v ∈ tied, 0 ≤ v ∧ v ≤ 1 := by decide +kernel
  obtain ⟨_, _, _, _, _, _, hrearranged, _⟩ := benjaminiHochberg_exact hp
  exact ⟨by decide +kernel, hrearranged [2, 3, 1, 0] (by decide)⟩

end Analysis
end IndieWorker
