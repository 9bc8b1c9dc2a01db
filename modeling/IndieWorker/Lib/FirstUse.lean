/-
Registers in which the first use of a key binds it.

A register is a list of rows with distinct keys.  Putting a row in binds its key
when nothing is bound to it, and changes nothing otherwise, so what a key is bound
to never changes again.
-/
import Mathlib.Data.List.Induction
import Mathlib.Data.List.Nodup

namespace IndieWorker
namespace FirstUse

variable {κ ρ : Type} (key : ρ → κ)

/-- No two rows have one key. -/
def Keyed (rows : List ρ) : Prop := (rows.map key).Nodup

theorem keyed_nil : Keyed key [] := List.nodup_nil

variable [DecidableEq κ]

/-- The row a key is bound to. -/
def bound (k : κ) (rows : List ρ) : Option ρ := rows.find? fun r => key r = k

/-- Bind the key of a row, unless it is bound. -/
def put (r : ρ) (rows : List ρ) : List ρ :=
  if (bound key (key r) rows).isSome then rows else rows ++ [r]

variable {key}

theorem bound_eq_some_iff {rows : List ρ} (h : Keyed key rows) {k : κ} {r : ρ} :
    bound key k rows = some r ↔ r ∈ rows ∧ key r = k := by
  constructor
  · intro hbound
    exact ⟨List.mem_of_find?_eq_some hbound, by simpa using List.find?_some hbound⟩
  · intro ⟨hmem, hkey⟩
    have hsome : (bound key k rows).isSome := by
      rw [bound, List.find?_isSome]
      exact ⟨r, hmem, by simpa using hkey⟩
    obtain ⟨r', hr'⟩ := Option.isSome_iff_exists.mp hsome
    have hkey' : key r' = k := by simpa using List.find?_some hr'
    have hsame : r' = r :=
      List.inj_on_of_nodup_map h (List.mem_of_find?_eq_some hr') hmem (hkey'.trans hkey.symm)
    rw [hr', hsame]

theorem bound_eq_none_iff {rows : List ρ} {k : κ} :
    bound key k rows = none ↔ ∀ r ∈ rows, key r ≠ k := by
  simp [bound]

theorem put_of_bound {rows : List ρ} {r r' : ρ} (h : bound key (key r) rows = some r') :
    put key r rows = rows := by
  simp [put, h]

theorem put_of_free {rows : List ρ} {r : ρ} (h : bound key (key r) rows = none) :
    put key r rows = rows ++ [r] := by
  simp [put, h]

/-- What a key is bound to stays. -/
theorem bound_put_of_bound {rows : List ρ} {k : κ} {r r' : ρ}
    (h : bound key k rows = some r) : bound key k (put key r' rows) = some r := by
  cases hbound : bound key (key r') rows with
  | some r'' =>
    rw [put_of_bound hbound]
    exact h
  | none =>
    rw [put_of_free hbound]
    show (rows ++ [r']).find? _ = some r
    rw [List.find?_append]
    exact congrArg (Option.or · _) h

/-- After a row was put in, its key is bound: to the row, or to what it was bound
to before. -/
theorem bound_put_self (r : ρ) (rows : List ρ) :
    bound key (key r) (put key r rows) = some ((bound key (key r) rows).getD r) := by
  cases h : bound key (key r) rows with
  | some r' => exact bound_put_of_bound h
  | none =>
    rw [put_of_free h]
    show (rows ++ [r]).find? _ = some r
    rw [List.find?_append]
    show (bound key (key r) rows).or _ = some r
    rw [h]
    simp

theorem Keyed.put {rows : List ρ} (h : Keyed key rows) (r : ρ) : Keyed key (put key r rows) := by
  cases hbound : bound key (key r) rows with
  | some r' =>
    rw [put_of_bound hbound]
    exact h
  | none =>
    rw [put_of_free hbound]
    show ((rows ++ [r]).map key).Nodup
    rw [List.map_append, List.nodup_append]
    refine ⟨h, List.nodup_singleton _, fun k hk k' hk' hkk => ?_⟩
    obtain ⟨r', hr', rfl⟩ := List.mem_map.mp hk
    rw [List.map_singleton, List.mem_singleton] at hk'
    exact bound_eq_none_iff.mp hbound r' hr' (hkk.trans hk')

/-! ## First occurrences

A list put in element by element, each under itself. -/

section Firsts

variable {α : Type} [DecidableEq α]

/-- The elements of a list, in the order in which they first occur. -/
def firsts (l : List α) : List α := l.foldl (fun out a => put id a out) []

theorem put_id (a : α) (out : List α) : put id a out = if a ∈ out then out else out ++ [a] := by
  unfold put bound
  by_cases h : a ∈ out
  · rw [if_pos h, if_pos]
    exact List.find?_isSome.mpr ⟨a, h, by simp⟩
  · rw [if_neg h, if_neg]
    intro hsome
    obtain ⟨x, hx, hxa⟩ := List.find?_isSome.mp hsome
    have hsame : x = a := by simpa using hxa
    exact h (hsame ▸ hx)

theorem firsts_concat (l : List α) (a : α) :
    firsts (l ++ [a]) = if a ∈ firsts l then firsts l else firsts l ++ [a] := by
  rw [firsts, List.foldl_append]
  exact put_id a (firsts l)

theorem mem_firsts {l : List α} {a : α} : a ∈ firsts l ↔ a ∈ l := by
  induction l using List.reverseRecOn with
  | nil => exact Iff.rfl
  | append_singleton l b ih =>
    rw [firsts_concat, List.mem_append, List.mem_singleton]
    by_cases hb : b ∈ firsts l
    · rw [if_pos hb, ih]
      exact ⟨Or.inl, fun h => h.elim id fun hab => hab ▸ ih.mp (hab ▸ hb)⟩
    · rw [if_neg hb, List.mem_append, List.mem_singleton, ih]

/-- Where two elements stand is decided by where they first occur. -/
theorem pairwise_firsts (l : List α) :
    (firsts l).Pairwise fun x y => l.idxOf x < l.idxOf y := by
  induction l using List.reverseRecOn with
  | nil => exact List.Pairwise.nil
  | append_singleton l b ih =>
    have hold : (firsts l).Pairwise fun x y => (l ++ [b]).idxOf x < (l ++ [b]).idxOf y := by
      refine ih.imp_of_mem fun hx hy hlt => ?_
      rwa [List.idxOf_append_of_mem (mem_firsts.mp hx), List.idxOf_append_of_mem (mem_firsts.mp hy)]
    rw [firsts_concat]
    by_cases hb : b ∈ firsts l
    · rw [if_pos hb]
      exact hold
    · rw [if_neg hb, List.pairwise_append]
      refine ⟨hold, List.pairwise_singleton _ _, fun x hx y hy => ?_⟩
      rw [List.mem_singleton] at hy
      subst hy
      have hx := mem_firsts.mp hx
      have hlt := List.idxOf_lt_length_of_mem hx
      rw [List.idxOf_append_of_mem hx, List.idxOf_append_of_notMem fun h => hb (mem_firsts.mpr h)]
      omega

theorem firsts_of_nodup {l : List α} (h : l.Nodup) : firsts l = l := by
  induction l using List.reverseRecOn with
  | nil => rfl
  | append_singleton l b ih =>
    rw [List.nodup_append] at h
    obtain ⟨hl, _, hne⟩ := h
    have hb : b ∉ firsts l := fun hmem =>
      hne b (mem_firsts.mp hmem) b (List.mem_singleton_self b) rfl
    rw [firsts_concat, if_neg hb, ih hl]

end Firsts

end FirstUse
end IndieWorker
