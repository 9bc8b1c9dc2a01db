import IndieWorker.Analysis.Changepoint
import IndieWorker.Analysis.Pearson
import IndieWorker.Lib.InPlace
import IndieWorker.Lib.MidRank

/-!
# Ranks

`ranks` and `spearman` of `src/analysis/regression.rs`.  The values are compared and
nothing else, so they are of any linear order; the ranks are exact.
-/

namespace IndieWorker
namespace Analysis

open InPlace MidRank Samples

variable {α β : Type} [LinearOrder α] [LinearOrder β]

section Program

variable (values : List α)

/-- The comparison of two places by their values. -/
def PlaceLe (a b : Fin values.length) : Prop := values[a] ≤ values[b]

instance : DecidableRel (PlaceLe values) := fun a b =>
  inferInstanceAs (Decidable (values[a] ≤ values[b]))

instance : Std.Total (PlaceLe values) := ⟨fun _ _ => le_total _ _⟩

instance : IsTrans (Fin values.length) (PlaceLe values) := ⟨fun _ _ _ => le_trans⟩

/-- The places of the values, by increasing value. -/
def placeOrder : List (Fin values.length) :=
  (List.finRange values.length).insertionSort (PlaceLe values)

variable {values} (order : List (Fin values.length))

/-- The inner loop: the last position of the run of ties that starts at `i`. -/
def runEnd (i : Fin order.length) (j : Nat) : Nat :=
  if h : j + 1 < order.length then
    if values[order[j + 1]] = values[order[i]] then runEnd i (j + 1) else j
  else j
termination_by order.length - j

theorem le_runEnd (i : Fin order.length) (j : Nat) : j ≤ runEnd order i j := by
  fun_induction runEnd order i j with
  | case1 j _ _ ih => omega
  | case2 => exact le_rfl
  | case3 => exact le_rfl

/-- The outer loop: every run gets the average of its positions, counted from one. -/
def assignRuns (i : Nat) (out : Vector ℚ values.length) : Vector ℚ values.length :=
  if h : i < order.length then
    let j := runEnd order ⟨i, h⟩ i
    let average : ℚ := ((i + 1 + j + 1 : Nat) : ℚ) / 2
    have : i ≤ j := le_runEnd order ⟨i, h⟩ i
    assignRuns (j + 1)
      ((order.extract i (j + 1)).foldl (fun out slot => out.set slot.val average) out)
  else out
termination_by order.length - i

variable (values) in
/-- Average ranks, from one on. -/
def ranks : List ℚ :=
  (assignRuns (placeOrder values) 0 (Vector.replicate values.length 0)).toList

end Program

namespace Samples

variable {K : Type} [Field K] [LinearOrder K] [IsStrictOrderedRing K]

/-- The ranks as numbers of a field. -/
def fieldRanks (values : List α) : List K := (ranks values).map fun (rank : ℚ) => (rank : K)

/-- Spearman rank correlation.  A number that is not finite is `none`. -/
def spearman (sqrt : K → K) (incompleteBeta : K → K → K → K) (x : List (Option α))
    (y : List (Option β)) : Except StatsError (Correlation K (PValue K)) :=
  if x.length ≠ y.length then .error (.lengthMismatch x.length y.length)
  else
    (checkFinite x).bind fun x =>
      (checkFinite y).bind fun y => pearson sqrt incompleteBeta (fieldRanks x) (fieldRanks y)

end Samples

/-! ## The order -/

section Order

variable {values : List α}

theorem placeOrder_perm : (placeOrder values).Perm (List.finRange values.length) :=
  List.perm_insertionSort (PlaceLe values) _

theorem placeOrder_nodup : (placeOrder values).Nodup :=
  placeOrder_perm.nodup_iff.mpr (List.nodup_finRange _)

theorem mem_placeOrder (a : Fin values.length) : a ∈ placeOrder values :=
  placeOrder_perm.mem_iff.mpr (List.mem_finRange a)

theorem placeOrder_pairwise : (placeOrder values).Pairwise (PlaceLe values) :=
  List.pairwise_insertionSort (PlaceLe values) _

theorem map_placeOrder_perm : ((placeOrder values).map fun a => values[a]).Perm values := by
  exact (placeOrder_perm.map _).trans (List.Perm.of_eq (List.map_getElem_finRange values))

end Order

/-! ## A run -/

section Runs

variable {ι : Type} (l : List ι) {i j : Nat}

theorem take_eq_append_extract (h : i ≤ j) : l.take j = l.take i ++ l.extract i j := by
  rw [List.extract_eq_take_drop, ← List.drop_take]
  conv_lhs => rw [← List.take_append_drop i (l.take j), List.take_take, Nat.min_eq_left h]

theorem drop_eq_extract_append (h : i ≤ j) : l.drop i = l.extract i j ++ l.drop j := by
  rw [List.extract_eq_take_drop]
  conv_lhs => rw [← List.take_append_drop (j - i) (l.drop i), List.drop_drop,
    Nat.add_sub_cancel' h]

theorem extract_succ (h : i ≤ j) (hj : j < l.length) :
    l.extract i (j + 1) = l.extract i j ++ [l[j]] := by
  have htake := take_eq_append_extract l (Nat.le_succ_of_le h)
  rw [List.take_succ_eq_append_getElem hj, take_eq_append_extract l h, List.append_assoc] at htake
  exact (List.append_cancel_left htake).symm

/-- The loop over the places of a run writes one place a turn. -/
theorem writes_set {n : Nat} (average : ℚ) :
    Writes (fun (out : Vector ℚ n) (a : Fin n) => out.get a) (fun _ => True) (fun _ _ => average)
      (fun out slot => out.set slot.val average slot.isLt) where
  keeps _ _ _ := trivial
  self _ a _ := Vector.getElem_set_self a.isLt
  other _ a b _ hb := Vector.getElem_set_ne a.isLt b.isLt fun h => hb (Fin.ext h.symm)

end Runs

section Loops

variable {values : List α} {order : List (Fin values.length)}

theorem runEnd_lt {i : Fin order.length} {j : Nat} (hj : j < order.length) :
    runEnd order i j < order.length := by
  fun_induction runEnd order i j with
  | case1 j h _ ih => exact ih h
  | case2 => exact hj
  | case3 => exact hj

/-- The inner loop stays in the run, and stops before a value that is not tied. -/
theorem runEnd_spec {i : Fin order.length} {j : Nat} (hij : i.val ≤ j)
    (hrun : ∀ b ∈ order.extract i.val (j + 1), values[b] = values[order[i]]) :
    (∀ b ∈ order.extract i.val (runEnd order i j + 1), values[b] = values[order[i]]) ∧
      ∀ b ∈ order[runEnd order i j + 1]?, values[b] ≠ values[order[i]] := by
  fun_induction runEnd order i j with
  | case1 j h htied ih =>
    refine ih (by omega) fun b hb => ?_
    rw [extract_succ order (by omega) h, List.mem_append, List.mem_singleton] at hb
    rcases hb with hb | rfl
    · exact hrun b hb
    · exact htied
  | case2 j h hdistinct =>
    refine ⟨hrun, fun b hb => ?_⟩
    rw [List.getElem?_eq_getElem h, Option.mem_some_iff] at hb
    exact hb ▸ hdistinct
  | case3 j h =>
    refine ⟨hrun, fun b hb => ?_⟩
    rw [List.getElem?_eq_none (not_lt.mp h)] at hb
    cases hb

/-- In a sorted order the values after a run are above it. -/
theorem runEnd_sorted (hsorted : order.Pairwise (PlaceLe values)) {i : Nat}
    (hi : i < order.length) :
    let j := runEnd order ⟨i, hi⟩ i
    (∀ b ∈ order.extract i (j + 1), values[b] = values[order[i]]) ∧
      ∀ b ∈ order.drop (j + 1), values[order[i]] < values[b] := by
  intro j
  have hij : i ≤ j := le_runEnd order ⟨i, hi⟩ i
  have hone : order.extract i (i + 1) = [order[i]] := by
    rw [extract_succ order le_rfl hi]
    simp
  obtain ⟨hrun, hstop⟩ := runEnd_spec (i := ⟨i, hi⟩) le_rfl fun b hb => by
    rw [hone, List.mem_singleton] at hb
    rw [hb]
    rfl
  refine ⟨hrun, fun b hb => ?_⟩
  have hmem : order[i] ∈ order.take (j + 1) :=
    List.mem_take_iff_getElem.mpr ⟨i, by omega, rfl⟩
  rw [← List.take_append_drop (j + 1) order, List.pairwise_append] at hsorted
  obtain ⟨-, hafter, hcross⟩ := hsorted
  cases hdrop : order.drop (j + 1) with
  | nil =>
    rw [hdrop] at hb
    cases hb
  | cons next rest =>
    rw [hdrop] at hb hafter hcross
    have hnext : order[j + 1]? = some next := by
      rw [← List.head?_drop, hdrop, List.head?_cons]
    -- the value after the run is not tied, so it is above the run
    have habove : values[order[i]] < values[next] :=
      lt_of_le_of_ne (hcross _ hmem next List.mem_cons_self) (hstop next hnext).symm
    rcases List.mem_cons.mp hb with rfl | hb
    · exact habove
    · exact habove.trans_le ((List.pairwise_cons.mp hafter).1 b hb)

/-- Every value before a position has its rank, and is below every value from there
on. -/
structure Filled (order : List (Fin values.length)) (i : Nat) (out : Vector ℚ values.length) :
    Prop where
  ranked : ∀ a ∈ order.take i, out[a] = midRank values values[a]
  apart : ∀ a ∈ order.take i, ∀ b ∈ order.drop i, values[a] < values[b]

/-- The average of the positions of a run is the rank of its value. -/
theorem midRank_run (hperm : (order.map fun a => values[a]).Perm values)
    (hsorted : order.Pairwise (PlaceLe values)) {i : Nat} (hi : i < order.length)
    (hapart : ∀ a ∈ order.take i, ∀ b ∈ order.drop i, values[a] < values[b]) :
    midRank values values[order[i]] =
      ((i + 1 + runEnd order ⟨i, hi⟩ i + 1 : Nat) : ℚ) / 2 := by
  have hle : i ≤ runEnd order ⟨i, hi⟩ i := le_runEnd order ⟨i, hi⟩ i
  have hlt : runEnd order ⟨i, hi⟩ i < order.length := runEnd_lt hi
  obtain ⟨hrun, hafter⟩ := runEnd_sorted hsorted hi
  generalize runEnd order ⟨i, hi⟩ i = j at hle hlt hrun hafter ⊢
  have hmem : order[i] ∈ order.drop i := List.mem_drop_iff_getElem.mpr ⟨0, by omega, by simp⟩
  have hlength : (order.extract i (j + 1)).length = j + 1 - i := by
    rw [List.extract_eq_take_drop, List.length_take, List.length_drop]
    omega
  have hvalues : (order.map fun a => values[a]) = (order.take i).map (fun a => values[a]) ++
      ((order.extract i (j + 1)).map (fun a => values[a]) ++
        (order.drop (j + 1)).map fun a => values[a]) := by
    rw [← List.map_append, ← List.map_append,
      ← drop_eq_extract_append order (Nat.le_succ_of_le hle), List.take_append_drop]
  rw [← midRank_perm hperm, hvalues, midRank_of_run]
  · rw [List.length_map, List.length_map, hlength, List.length_take_of_le hi.le]
    congr 2
    omega
  · exact List.forall_mem_map.mpr fun a ha => hapart a ha _ hmem
  · exact List.forall_mem_map.mpr hrun
  · exact List.forall_mem_map.mpr hafter

/-- A turn of the outer loop. -/
theorem Filled.turn (hperm : (order.map fun a => values[a]).Perm values) (hnodup : order.Nodup)
    (hsorted : order.Pairwise (PlaceLe values)) {i : Nat} (hi : i < order.length)
    {out : Vector ℚ values.length} (h : Filled order i out) :
    let j := runEnd order ⟨i, hi⟩ i
    Filled order (j + 1) ((order.extract i (j + 1)).foldl
      (fun out slot => out.set slot.val (((i + 1 + j + 1 : Nat) : ℚ) / 2)) out) := by
  intro j
  have hij : i ≤ j + 1 := Nat.le_succ_of_le (le_runEnd order ⟨i, hi⟩ i)
  obtain ⟨hrun, hafter⟩ := runEnd_sorted hsorted hi
  have htake := take_eq_append_extract order hij
  have hdrop := drop_eq_extract_append order hij
  have hextract : (order.take i).Disjoint (order.extract i (j + 1)) ∧
      (order.extract i (j + 1)).Nodup := by
    have hfront : (order.take (j + 1)).Nodup := hnodup.sublist (List.take_sublist _ _)
    rw [htake, List.nodup_append'] at hfront
    exact ⟨hfront.2.2, hfront.2.1⟩
  constructor
  · intro a ha
    rw [htake, List.mem_append] at ha
    rcases ha with ha | ha
    · have hkept := (writes_set (((i + 1 + j + 1 : Nat) : ℚ) / 2)).get_foldl_of_not_mem
        (fun hmem => hextract.1 ha hmem) (s := out) trivial
      exact hkept.trans (h.ranked a ha)
    · have hset := (writes_set (((i + 1 + j + 1 : Nat) : ℚ) / 2)).get_foldl_of_mem
        hextract.2 ha (s := out) trivial
      refine hset.trans ?_
      rw [hrun a ha, midRank_run hperm hsorted hi h.apart]
  · intro a ha b hb
    rw [htake, List.mem_append] at ha
    rcases ha with ha | ha
    · exact h.apart a ha b (hdrop ▸ List.mem_append_right _ hb)
    · rw [hrun a ha]
      exact hafter b hb

/-- A run of the outer loop. -/
theorem Filled.run (hperm : (order.map fun a => values[a]).Perm values) (hnodup : order.Nodup)
    (hsorted : order.Pairwise (PlaceLe values)) {i : Nat} {out : Vector ℚ values.length}
    (h : Filled order i out) :
    ∀ a ∈ order, (assignRuns order i out)[a] = midRank values values[a] := by
  fun_induction assignRuns order i out with
  | case1 i out hi j average hij ih => exact ih (h.turn hperm hnodup hsorted hi)
  | case2 i out hi =>
    intro a ha
    exact h.ranked a (by rwa [List.take_of_length_le (not_lt.mp hi)])

end Loops

/-! ## The ranks -/

section Results

/-- The ranks are those of the values, wherever they stand. -/
theorem ranks_eq (values : List α) : ranks values = values.map (midRank values) := by
  have hempty : Filled (placeOrder values) 0 (Vector.replicate values.length 0) :=
    ⟨fun _ ha => absurd ha List.not_mem_nil, fun _ ha => absurd ha List.not_mem_nil⟩
  have hrun := hempty.run map_placeOrder_perm placeOrder_nodup placeOrder_pairwise
  apply List.ext_getElem
  · rw [ranks, Vector.length_toList, List.length_map]
  · intro i _ hi
    rw [List.length_map] at hi
    rw [List.getElem_map]
    exact hrun ⟨i, hi⟩ (mem_placeOrder _)

example : ranks ([10, 20, 20, 30] : List ℚ) = [1, 5 / 2, 5 / 2, 4] := by decide +kernel

theorem length_ranks (values : List α) : (ranks values).length = values.length := by
  rw [ranks_eq, List.length_map]

theorem getElem?_ranks (values : List α) (i : Fin values.length) :
    (ranks values)[i.val]? = some (midRank values values[i]) := by
  rw [ranks_eq, List.getElem?_map, List.getElem?_eq_getElem i.isLt]
  rfl

theorem ranks_map {values : List α} {f : α → β} (hf : StrictMonoOn f {v | v ∈ values}) :
    ranks (values.map f) = ranks values := by
  rw [ranks_eq, ranks_eq, map_midRank_map hf]

theorem ranks_permuted (values : List α) (σ : Equiv.Perm (Fin values.length)) :
    ranks (List.ofFn fun i => values[σ i]) = List.ofFn fun i => midRank values values[σ i] := by
  have hperm : (List.ofFn fun i => values[σ i]).Perm values := by
    have hcomp := Equiv.Perm.ofFn_comp_perm σ fun i : Fin values.length => values[i]
    exact hcomp.trans (List.Perm.of_eq List.ofFn_getElem)
  rw [ranks_eq, List.map_ofFn]
  exact congrArg List.ofFn (funext fun i => midRank_perm hperm _)

/-- Whether the numbers are finite does not depend on the finite ones. -/
theorem checkFinite_map {γ δ : Type} (f : γ → δ) (series : List (Option γ)) :
    checkFinite (series.map (Option.map f)) = (checkFinite series).map (List.map f) := by
  have hnone : Option.isNone ∘ Option.map f = Option.isNone := by
    funext v
    cases v with
    | none => rfl
    | some v => rfl
  rw [checkFinite, checkFinite, List.findIdx?_map, hnone]
  cases series.findIdx? Option.isNone with
  | none => exact congrArg Except.ok List.reduceOption_map
  | some index => rfl

variable (sqrt : ℚ → ℚ) (incompleteBeta : ℚ → ℚ → ℚ → ℚ)

theorem spearman_map {x y : List (Option α)} {f g : α → β}
    (hf : StrictMonoOn f {v | some v ∈ x}) (hg : StrictMonoOn g {v | some v ∈ y}) :
    spearman sqrt incompleteBeta (x.map (Option.map f)) (y.map (Option.map g)) =
      spearman sqrt incompleteBeta x y := by
  rw [spearman, spearman, List.length_map, List.length_map, checkFinite_map, checkFinite_map]
  split
  · rfl
  · cases hx : checkFinite x with
    | error error => rfl
    | ok xs =>
      cases hy : checkFinite y with
      | error error => rfl
      | ok ys =>
        have hfx : StrictMonoOn f {v | v ∈ xs} := by
          rw [eq_map_some_of_checkFinite hx] at hf
          simpa using hf
        have hgy : StrictMonoOn g {v | v ∈ ys} := by
          rw [eq_map_some_of_checkFinite hy] at hg
          simpa using hg
        show pearson sqrt incompleteBeta (fieldRanks (xs.map f)) (fieldRanks (ys.map g)) =
          pearson sqrt incompleteBeta (fieldRanks xs) (fieldRanks ys)
        rw [fieldRanks, ranks_map hfx, fieldRanks, ranks_map hgy, fieldRanks, fieldRanks]

end Results

/-- The rank of a value counts the values below it, and half of one more than its
equals. -/
theorem ranks_average (α β : Type) [LinearOrder α] [LinearOrder β] :
    (∀ values : List α,
      (ranks values).length = values.length ∧
        (∀ i : Fin values.length, (ranks values)[i.val]? =
          some ((values.countP (· < values[i]) : ℚ) +
            (values.countP (· = values[i]) + 1) / 2)) ∧
        (∀ (σ : Equiv.Perm (Fin values.length)) (i : Fin values.length),
          (ranks (List.ofFn fun j => values[σ j]))[i.val]? = (ranks values)[(σ i).val]?) ∧
        (ranks values).sum = values.length * (values.length + 1) / 2 ∧
        ∀ f : α → β, StrictMonoOn f {v | v ∈ values} → ranks (values.map f) = ranks values) ∧
      ∀ (sqrt : ℚ → ℚ) (incompleteBeta : ℚ → ℚ → ℚ → ℚ) (x y : List (Option α)) (f g : α → β),
        StrictMonoOn f {v | some v ∈ x} → StrictMonoOn g {v | some v ∈ y} →
          spearman sqrt incompleteBeta (x.map (Option.map f)) (y.map (Option.map g)) =
            spearman sqrt incompleteBeta x y := by
  refine ⟨fun values => ⟨length_ranks values, ?_, ?_, ?_, fun f hf => ranks_map hf⟩,
    fun sqrt incompleteBeta x y f g hf hg => spearman_map sqrt incompleteBeta hf hg⟩
  · intro i
    rw [getElem?_ranks]
    rfl
  · intro σ i
    rw [getElem?_ranks, ranks_permuted, List.getElem?_ofFn, dif_pos i.isLt]
  · rw [ranks_eq, sum_map_midRank]

/-- Two tied values in four, doubled. -/
theorem ranks_average_tied :
    let values : List ℚ := [10, 20, 20, 30]
    let double : ℚ → ℚ := fun v => 2 * v
    let finite : List (Option ℚ) := values.map some
    (ranks values)[2]? = some (1 + (2 + 1) / 2) ∧ (ranks values).sum = 10 ∧
      ranks ([20, 40, 40, 60] : List ℚ) = ranks values ∧
        spearman (id : ℚ → ℚ) (fun _ _ x => x) (finite.map (Option.map double))
            (finite.map (Option.map id)) =
          spearman id (fun _ _ x => x) finite finite := by
  intro values double finite
  have hdouble : StrictMono double := fun v w h => by
    show 2 * v < 2 * w
    linarith only [h]
  obtain ⟨hvalues, hspearman⟩ := ranks_average ℚ ℚ
  obtain ⟨-, hrank, -, hsum, hmap⟩ := hvalues values
  refine ⟨(hrank 2).trans ?_, hsum.trans ?_, ?_,
    hspearman id (fun _ _ x => x) finite finite double id (hdouble.strictMonoOn _)
      (strictMono_id.strictMonoOn _)⟩
  · decide +kernel
  · norm_num [values]
  · have hdoubled : values.map double = [20, 40, 40, 60] := by decide +kernel
    exact (congrArg ranks hdoubled).symm.trans (hmap double (hdouble.strictMonoOn _))

end Analysis
end IndieWorker
