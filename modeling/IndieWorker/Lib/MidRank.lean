/-
The average ranks of the values of a list.

In a sorted list equal values stand in a run, and the average of the positions of
the run, counted from one, is the average rank of its value.  It can be read off
the list in any order: the values below it, and half of one more than the values
equal to it.
-/
import Mathlib.Algebra.Order.BigOperators.Group.List
import Mathlib.Data.List.Count
import Mathlib.Data.Rat.Cast.Order
import Mathlib.Order.Monotone.Basic
import Mathlib.Tactic.Linarith
import Mathlib.Tactic.LinearCombination
import Mathlib.Tactic.Ring

namespace IndieWorker
namespace MidRank

variable {α β : Type} [LinearOrder α] [LinearOrder β]

def midRank (values : List α) (v : α) : ℚ :=
  values.countP (· < v) + (values.countP (· = v) + 1) / 2

theorem midRank_perm {values values' : List α} (h : values.Perm values') (v : α) :
    midRank values v = midRank values' v := by
  rw [midRank, midRank, h.countP_eq, h.countP_eq]

/-- The average of the positions of a run, from the first to the last. -/
theorem midRank_of_run {before run after : List α} {v : α} (hbefore : ∀ w ∈ before, w < v)
    (hrun : ∀ w ∈ run, w = v) (hafter : ∀ w ∈ after, v < w) :
    midRank (before ++ (run ++ after)) v =
      ((before.length + 1 + (before.length + run.length) : Nat) : ℚ) / 2 := by
  have hbelow : (before ++ (run ++ after)).countP (· < v) = before.length := by
    have hfirst : before.countP (· < v) = before.length :=
      List.countP_eq_length.mpr fun w hw => by simpa using hbefore w hw
    have hsecond : run.countP (· < v) = 0 :=
      List.countP_eq_zero.mpr fun w hw => by simp [hrun w hw]
    have hthird : after.countP (· < v) = 0 :=
      List.countP_eq_zero.mpr fun w hw => by simpa using (hafter w hw).le
    rw [List.countP_append, List.countP_append, hfirst, hsecond, hthird]
    omega
  have htied : (before ++ (run ++ after)).countP (· = v) = run.length := by
    have hfirst : before.countP (· = v) = 0 :=
      List.countP_eq_zero.mpr fun w hw => by simpa using (hbefore w hw).ne
    have hsecond : run.countP (· = v) = run.length :=
      List.countP_eq_length.mpr fun w hw => by simpa using hrun w hw
    have hthird : after.countP (· = v) = 0 :=
      List.countP_eq_zero.mpr fun w hw => by simpa using (hafter w hw).ne'
    rw [List.countP_append, List.countP_append, hfirst, hsecond, hthird]
    omega
  rw [midRank, hbelow, htied]
  push_cast
  ring

/-- Only the order of the values matters. -/
theorem midRank_map {values : List α} {f : α → β} (hf : StrictMonoOn f {v | v ∈ values}) {v : α}
    (hv : v ∈ values) : midRank (values.map f) (f v) = midRank values v := by
  have hbelow : values.countP ((fun w => decide (w < f v)) ∘ f) = values.countP (· < v) :=
    List.countP_congr fun w hw => by simp [hf.lt_iff_lt hw hv]
  have htied : values.countP ((fun w => decide (w = f v)) ∘ f) = values.countP (· = v) :=
    List.countP_congr fun w hw => by simp [hf.injOn.eq_iff hw hv]
  rw [midRank, List.countP_map, List.countP_map, hbelow, htied, midRank]

theorem map_midRank_map {values : List α} {f : α → β} (hf : StrictMonoOn f {v | v ∈ values}) :
    (values.map f).map (midRank (values.map f)) = values.map (midRank values) := by
  rw [List.map_map]
  exact List.map_congr_left fun v hv => midRank_map hf hv

/-! ## The sum -/

theorem countP_lt_add_countP_eq_add_countP_gt (values : List α) (v : α) :
    values.countP (· < v) + values.countP (· = v) + values.countP (v < ·) = values.length := by
  induction values with
  | nil => rfl
  | cons w values ih =>
    rcases lt_trichotomy w v with hlt | heq | hgt
    · simp only [List.countP_cons, decide_eq_true_eq, if_pos hlt, if_neg hlt.ne,
        if_neg hlt.asymm, List.length_cons]
      omega
    · simp only [List.countP_cons, decide_eq_true_eq, if_neg (not_lt.mpr heq.ge), if_pos heq,
        if_neg (not_lt.mpr heq.le), List.length_cons]
      omega
    · simp only [List.countP_cons, decide_eq_true_eq, if_pos hgt, if_neg hgt.ne',
        if_neg hgt.asymm, List.length_cons]
      omega

/-- A new value raises the ranks above it by one, and those of its equals by half. -/
theorem midRank_cons (w : α) (values : List α) (v : α) :
    midRank (w :: values) v =
      midRank values v + ((if w < v then 1 else 0) + (if v = w then 1 else 0) / 2) := by
  rw [midRank, midRank, List.countP_cons, List.countP_cons]
  simp only [decide_eq_true_eq, eq_comm (a := w)]
  push_cast
  ring

theorem sum_map_midRank_cons (w : α) (values vs : List α) :
    (vs.map (midRank (w :: values))).sum =
      (vs.map (midRank values)).sum + (vs.countP (w < ·) + vs.countP (· = w) / 2) := by
  induction vs with
  | nil => simp
  | cons v vs ih =>
    rw [List.map_cons, List.sum_cons, ih, List.map_cons, List.sum_cons, midRank_cons,
      List.countP_cons, List.countP_cons]
    simp only [decide_eq_true_eq]
    push_cast
    ring

/-- The ranks of `n` values add up to the sum of the first `n` numbers. -/
theorem sum_map_midRank (values : List α) :
    (values.map (midRank values)).sum = values.length * (values.length + 1) / 2 := by
  induction values with
  | nil => simp
  | cons w values ih =>
    have hcount : (values.countP (· < w) : ℚ) + values.countP (· = w) + values.countP (w < ·) =
        values.length := by exact_mod_cast countP_lt_add_countP_eq_add_countP_gt values w
    have hfirst : midRank (w :: values) w =
        values.countP (· < w) + (values.countP (· = w) + 2) / 2 := by
      rw [midRank_cons, midRank, if_neg (lt_irrefl w), if_pos rfl]
      ring
    rw [List.map_cons, List.sum_cons, sum_map_midRank_cons, ih, hfirst, List.length_cons]
    push_cast
    linear_combination hcount

/-- The values below a greater value hold those below and equal to a smaller one. -/
theorem countP_lt_add_countP_eq_le (values : List α) {v w : α} (h : v < w) :
    values.countP (· < v) + values.countP (· = v) ≤ values.countP (· < w) := by
  induction values with
  | nil => rfl
  | cons u values ih =>
    rcases lt_trichotomy u v with hlt | heq | hgt
    · simp only [List.countP_cons, decide_eq_true_eq, if_pos hlt, if_neg hlt.ne,
        if_pos (hlt.trans h)]
      omega
    · simp only [List.countP_cons, decide_eq_true_eq, if_neg (not_lt.mpr heq.ge), if_pos heq,
        if_pos (heq.trans_lt h)]
      omega
    · simp only [List.countP_cons, decide_eq_true_eq, if_neg hgt.asymm, if_neg hgt.ne']
      omega

theorem midRank_strictMonoOn (values : List α) :
    StrictMonoOn (midRank values) {v | v ∈ values} := by
  intro v hv w hw h
  have hbelow : (values.countP (· < v) : ℚ) + values.countP (· = v) ≤ values.countP (· < w) := by
    exact_mod_cast countP_lt_add_countP_eq_le values h
  have htied : (1 : ℚ) ≤ values.countP (· = v) := by
    exact_mod_cast List.countP_pos_iff.mpr ⟨v, hv, by simp⟩
  have htied' : (1 : ℚ) ≤ values.countP (· = w) := by
    exact_mod_cast List.countP_pos_iff.mpr ⟨w, hw, by simp⟩
  rw [midRank, midRank]
  linarith only [hbelow, htied, htied']

/-! ## Two lists in step -/

/-- The lists order their places alike. -/
def OrderedAlike (x : List α) (y : List β) : Prop :=
  ∀ v ∈ x.zip y, ∀ w ∈ x.zip y, v.1 < w.1 ↔ v.2 < w.2

/-- The lists order their places the opposite way. -/
def OrderedOppositely (x : List α) (y : List β) : Prop :=
  ∀ v ∈ x.zip y, ∀ w ∈ x.zip y, v.1 < w.1 ↔ w.2 < v.2

section Pairs

variable {x : List α} {y : List β}

theorem OrderedAlike.eq_iff (h : OrderedAlike x y) {v w : α × β} (hv : v ∈ x.zip y)
    (hw : w ∈ x.zip y) : v.1 = w.1 ↔ v.2 = w.2 := by
  rw [eq_iff_le_not_lt, eq_iff_le_not_lt, ← not_lt, ← not_lt, h v hv w hw, h w hw v hv]

theorem OrderedOppositely.eq_iff (h : OrderedOppositely x y) {v w : α × β} (hv : v ∈ x.zip y)
    (hw : w ∈ x.zip y) : v.1 = w.1 ↔ v.2 = w.2 := by
  rw [eq_iff_le_not_lt, eq_iff_le_not_lt, ← not_lt, ← not_lt, h v hv w hw, h w hw v hv, not_lt,
    not_lt, and_comm]

omit [LinearOrder α] [LinearOrder β] in
/-- Predicates that agree on every pair hold equally often. -/
theorem countP_eq_of_zip (hlength : x.length = y.length) {p : α → Prop} {q : β → Prop}
    [DecidablePred p] [DecidablePred q] (h : ∀ w ∈ x.zip y, p w.1 ↔ q w.2) :
    x.countP (fun v => p v) = y.countP (fun v => q v) := by
  have hfst : x.countP (fun v => p v) = (x.zip y).countP (fun w => p w.1) := by
    conv_lhs => rw [← List.map_fst_zip hlength.le, List.countP_map]
    rfl
  have hsnd : y.countP (fun v => q v) = (x.zip y).countP (fun w => q w.2) := by
    conv_lhs => rw [← List.map_snd_zip hlength.ge, List.countP_map]
    rfl
  rw [hfst, hsnd]
  exact List.countP_congr fun w hw => by simpa using h w hw

theorem OrderedAlike.midRank_eq (h : OrderedAlike x y) (hlength : x.length = y.length)
    {v : α × β} (hv : v ∈ x.zip y) : midRank x v.1 = midRank y v.2 := by
  have hbelow : x.countP (· < v.1) = y.countP (· < v.2) :=
    countP_eq_of_zip hlength fun w hw => h w hw v hv
  have htied : x.countP (· = v.1) = y.countP (· = v.2) :=
    countP_eq_of_zip hlength fun w hw => h.eq_iff hw hv
  rw [midRank, midRank, hbelow, htied]

/-- The ranks of two opposite lists add up to one more than their length. -/
theorem OrderedOppositely.midRank_add (h : OrderedOppositely x y)
    (hlength : x.length = y.length) {v : α × β} (hv : v ∈ x.zip y) :
    midRank x v.1 + midRank y v.2 = x.length + 1 := by
  have hbelow : x.countP (v.1 < ·) = y.countP (· < v.2) :=
    countP_eq_of_zip hlength fun w hw => h v hv w hw
  have htied : x.countP (· = v.1) = y.countP (· = v.2) :=
    countP_eq_of_zip hlength fun w hw => h.eq_iff hw hv
  have hcount : (x.countP (· < v.1) : ℚ) + x.countP (· = v.1) + x.countP (v.1 < ·) =
      x.length := by exact_mod_cast countP_lt_add_countP_eq_add_countP_gt x v.1
  rw [midRank, midRank, ← hbelow, ← htied]
  linarith only [hcount]

end Pairs

end MidRank
end IndieWorker
