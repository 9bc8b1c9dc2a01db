/-
Greedy search for a run of counted items.

A counted item matches a segment whose every element satisfies it and whose
length lies between its bounds.  `matchFrom` tries, item by item, the longest
segment first and gives elements back one at a time.  `matchFrom_iff` says that
it finds a split into such segments exactly when one exists.
-/
import Mathlib.Data.List.Basic

namespace IndieWorker
namespace Search

/-- An item and how often it may stand in a row. -/
structure Counted (ι : Type) where
  item : ι
  min : Nat
  max : Nat
  le : min ≤ max
  deriving DecidableEq

section Segment

variable {α : Type} (p : α → Bool)

/-- What is left of the input after `n` elements that satisfy `p`. -/
def takeMin : Nat → List α → Option (List α)
  | 0, cs => some cs
  | _ + 1, [] => none
  | n + 1, c :: cs => if p c then takeMin n cs else none

/-- What may be left after `count` elements and any more that satisfy `p`, up to
`max` in all; the longest segment comes last. -/
def ends (max : Nat) : Nat → List α → List (List α)
  | _, [] => [[]]
  | count, c :: cs => (c :: cs) :: if count < max ∧ p c then ends max (count + 1) cs else []

variable {p}

theorem takeMin_eq_some_iff {n : Nat} {cs rest : List α} :
    takeMin p n cs = some rest ↔
      ∃ seg, cs = seg ++ rest ∧ seg.length = n ∧ ∀ c ∈ seg, p c = true := by
  induction n generalizing cs with
  | zero =>
    constructor
    · intro h
      cases h
      exact ⟨[], rfl, rfl, by simp⟩
    · intro hex
      obtain ⟨seg, rfl, hlen, -⟩ := hex
      rw [List.length_eq_zero_iff.mp hlen]
      rfl
  | succ n ih =>
    cases cs with
    | nil =>
      constructor
      · intro h
        cases h
      · intro hex
        obtain ⟨seg, heq, hlen, -⟩ := hex
        rw [(List.append_eq_nil_iff.mp heq.symm).1] at hlen
        cases hlen
    | cons c cs =>
      rw [takeMin]
      constructor
      · intro h
        split at h
        · next hc =>
          obtain ⟨seg, rfl, hlen, hall⟩ := ih.mp h
          exact ⟨c :: seg, rfl, by rw [List.length_cons, hlen], List.forall_mem_cons.mpr ⟨hc, hall⟩⟩
        · cases h
      · intro hex
        obtain ⟨_ | ⟨d, seg⟩, heq, hlen, hall⟩ := hex
        · cases hlen
        · cases heq
          obtain ⟨hc, hall⟩ := List.forall_mem_cons.mp hall
          rw [if_pos hc]
          exact ih.mpr ⟨seg, rfl, Nat.succ.inj hlen, hall⟩

theorem mem_ends_iff {max count : Nat} {cs rest : List α} (hcount : count ≤ max) :
    rest ∈ ends p max count cs ↔
      ∃ seg, cs = seg ++ rest ∧ count + seg.length ≤ max ∧ ∀ c ∈ seg, p c = true := by
  induction cs generalizing count with
  | nil =>
    rw [ends, List.mem_singleton]
    constructor
    · intro hsame
      subst hsame
      exact ⟨[], rfl, hcount, by simp⟩
    · intro h
      obtain ⟨seg, heq, -, -⟩ := h
      exact (List.append_eq_nil_iff.mp heq.symm).2
  | cons c cs ih =>
    rw [ends, List.mem_cons]
    constructor
    · intro h
      rcases h with rfl | hrest
      · exact ⟨[], rfl, hcount, by simp⟩
      · split at hrest
        · next hc =>
          obtain ⟨seg, rfl, hle, hall⟩ := (ih hc.1).mp hrest
          exact ⟨c :: seg, rfl, by rw [List.length_cons]; omega,
            List.forall_mem_cons.mpr ⟨hc.2, hall⟩⟩
        · cases hrest
    · intro h
      obtain ⟨_ | ⟨d, seg⟩, heq, hle, hall⟩ := h
      · exact Or.inl heq.symm
      · cases heq
        obtain ⟨hc, hall⟩ := List.forall_mem_cons.mp hall
        rw [List.length_cons] at hle
        have hlt : count < max := by omega
        rw [if_pos ⟨hlt, hc⟩]
        exact Or.inr ((ih hlt).mpr ⟨seg, rfl, by omega, hall⟩)

end Segment

section Items

variable {ι α : Type} (ok : ι → α → Bool)

/-- Whether the items match from here on, in such a way that what they leave of
the input is accepted. -/
def matchFrom (accept : List α → Bool) : List (Counted ι) → List α → Bool
  | [], cs => accept cs
  | a :: as, cs =>
    match takeMin (ok a.item) a.min cs with
    | none => false
    | some cursor => (ends (ok a.item) a.max a.min cursor).reverse.any (matchFrom accept as)

/-- The input is a segment for each item, and then `rest`. -/
inductive Splits : List (Counted ι) → List α → List α → Prop
  | done (rest : List α) : Splits [] rest rest
  | segment {a : Counted ι} {as : List (Counted ι)} {seg cs rest : List α} :
      a.min ≤ seg.length → seg.length ≤ a.max → (∀ c ∈ seg, ok a.item c = true) →
      Splits as cs rest → Splits (a :: as) (seg ++ cs) rest

variable {ok}

/-- The search is complete, and finds nothing else. -/
theorem matchFrom_iff {accept : List α → Bool} {as : List (Counted ι)} {cs : List α} :
    matchFrom ok accept as cs = true ↔ ∃ rest, Splits ok as cs rest ∧ accept rest = true := by
  induction as generalizing cs with
  | nil =>
    constructor
    · exact fun h => ⟨cs, .done cs, h⟩
    · intro hex
      obtain ⟨rest, hsplit, haccept⟩ := hex
      cases hsplit
      exact haccept
  | cons a as ih =>
    rw [matchFrom]
    constructor
    · intro h
      rcases htake : takeMin (ok a.item) a.min cs with _ | cursor
      · rw [htake] at h
        cases h
      · rw [htake] at h
        obtain ⟨mid, hmid, hmatch⟩ := List.any_eq_true.mp h
        obtain ⟨lo, rfl, hlo, hallLo⟩ := takeMin_eq_some_iff.mp htake
        obtain ⟨more, rfl, hmore, hallMore⟩ :=
          (mem_ends_iff a.le).mp (List.mem_reverse.mp hmid)
        obtain ⟨rest, hsplit, haccept⟩ := ih.mp hmatch
        refine ⟨rest, ?_, haccept⟩
        rw [← List.append_assoc]
        refine .segment ?_ ?_ ?_ hsplit
        · rw [List.length_append]
          omega
        · rw [List.length_append]
          omega
        · exact fun c hc => (List.mem_append.mp hc).elim (hallLo c) (hallMore c)
    · intro hex
      obtain ⟨rest, hsplit, haccept⟩ := hex
      cases hsplit with
      | @segment _ _ seg mid _ hmin hmax hall hsplit =>
        -- the first `min` elements of the segment are taken, the others given back to
        have htake : takeMin (ok a.item) a.min (seg ++ mid) = some (seg.drop a.min ++ mid) := by
          refine takeMin_eq_some_iff.mpr ⟨seg.take a.min, ?_, ?_, ?_⟩
          · rw [← List.append_assoc, List.take_append_drop]
          · rw [List.length_take]
            omega
          · exact fun c hc => hall c (List.mem_of_mem_take hc)
        have hend : mid ∈ ends (ok a.item) a.max a.min (seg.drop a.min ++ mid) := by
          refine (mem_ends_iff a.le).mpr ⟨seg.drop a.min, rfl, ?_, ?_⟩
          · rw [List.length_drop]
            omega
          · exact fun c hc => hall c (List.mem_of_mem_drop hc)
        rw [htake]
        exact List.any_eq_true.mpr ⟨mid, List.mem_reverse.mpr hend,
          ih.mpr ⟨rest, hsplit, haccept⟩⟩

theorem Splits.congr {ok' : ι → α → Bool} {as : List (Counted ι)} {cs rest : List α}
    (hsplit : Splits ok as cs rest)
    (hok : ∀ a ∈ as, ∀ c ∈ cs, ok a.item c = ok' a.item c) : Splits ok' as cs rest := by
  induction hsplit with
  | done rest => exact .done rest
  | segment hmin hmax hall hsplit ih =>
    refine .segment hmin hmax (fun c hc => ?_) (ih fun a ha c hc => ?_)
    · rw [← hok _ List.mem_cons_self c (List.mem_append_left _ hc)]
      exact hall c hc
    · exact hok a (List.mem_cons_of_mem _ ha) c (List.mem_append_right _ hc)

/-! ## Positions and counts -/

variable (ok) in
/-- From position `pos` on, the items take `counts` elements of the text one after the
other, and stop at position `stop`. -/
def Cut (text : List α) : List (Counted ι) → List Nat → Nat → Nat → Prop
  | [], [], pos, stop => stop = pos
  | a :: as, n :: counts, pos, stop =>
    a.min ≤ n ∧ n ≤ a.max ∧ (∀ i < n, ∃ c, text[pos + i]? = some c ∧ ok a.item c = true) ∧
      Cut text as counts (pos + n) stop
  | _, _, _, _ => False

/-- The elements of a segment, by position. -/
theorem forall_getElem?_iff {p : α → Bool} {text : List α} {pos n : Nat}
    (hpos : pos ≤ text.length) :
    (∀ i < n, ∃ c, text[pos + i]? = some c ∧ p c = true) ↔
      pos + n ≤ text.length ∧ ∀ c ∈ (text.drop pos).take n, p c = true := by
  constructor
  · intro h
    refine ⟨?_, fun c hc => ?_⟩
    · cases n with
      | zero => exact hpos
      | succ n =>
        obtain ⟨c, hc, _⟩ := h n (Nat.lt_succ_self n)
        have hlt := (List.getElem?_eq_some_iff.mp hc).1
        omega
    · obtain ⟨i, hi⟩ := List.mem_iff_getElem?.mp hc
      rw [List.getElem?_take, List.getElem?_drop] at hi
      by_cases hlt : i < n
      · rw [if_pos hlt] at hi
        obtain ⟨d, hd, hp⟩ := h i hlt
        rw [hi] at hd
        cases hd
        exact hp
      · rw [if_neg hlt] at hi
        cases hi
  · intro h i hi
    obtain ⟨hlen, hall⟩ := h
    have hlt : pos + i < text.length := by omega
    refine ⟨text[pos + i], List.getElem?_eq_getElem hlt, hall _ ?_⟩
    refine List.mem_iff_getElem?.mpr ⟨i, ?_⟩
    rw [List.getElem?_take, if_pos hi, List.getElem?_drop]
    exact List.getElem?_eq_getElem hlt

theorem Cut.splits {text : List α} {as : List (Counted ι)} {counts : List Nat} {pos stop : Nat}
    (h : Cut ok text as counts pos stop) (hpos : pos ≤ text.length) :
    stop ≤ text.length ∧ Splits ok as (text.drop pos) (text.drop stop) := by
  induction as generalizing counts pos with
  | nil =>
    cases counts with
    | nil =>
      rw [Cut] at h
      rw [h]
      exact ⟨hpos, .done _⟩
    | cons n counts => exact absurd h id
  | cons a as ih =>
    cases counts with
    | nil => exact absurd h id
    | cons n counts =>
      obtain ⟨hmin, hmax, hall, hrest⟩ := h
      obtain ⟨hlen, hall⟩ := (forall_getElem?_iff hpos).mp hall
      obtain ⟨hstop, hsplit⟩ := ih hrest hlen
      have htake : ((text.drop pos).take n).length = n := by
        rw [List.length_take, List.length_drop]
        omega
      refine ⟨hstop, ?_⟩
      rw [← List.take_append_drop n (text.drop pos), List.drop_drop]
      exact .segment (by rw [htake]; exact hmin) (by rw [htake]; exact hmax) hall hsplit

theorem Splits.cut {text : List α} {as : List (Counted ι)} {pos : Nat} {rest : List α}
    (h : Splits ok as (text.drop pos) rest) (hpos : pos ≤ text.length) :
    ∃ counts, Cut ok text as counts pos (text.length - rest.length) := by
  induction as generalizing pos with
  | nil =>
    refine ⟨[], ?_⟩
    cases h
    show text.length - (text.drop pos).length = pos
    rw [List.length_drop]
    omega
  | cons a as ih =>
    generalize hcs : text.drop pos = cs at h
    cases h with
    | @segment _ _ seg cs _ hmin hmax hall hsplit =>
      have hlen := congrArg List.length hcs
      rw [List.length_drop, List.length_append] at hlen
      have hdrop : text.drop (pos + seg.length) = cs := by
        rw [← List.drop_drop, hcs, List.drop_left]
      have htake : (text.drop pos).take seg.length = seg := by
        rw [hcs, List.take_left]
      rw [← hdrop] at hsplit
      obtain ⟨counts, hcut⟩ := ih hsplit (by omega)
      refine ⟨seg.length :: counts, hmin, hmax, (forall_getElem?_iff hpos).mpr ⟨by omega, ?_⟩, hcut⟩
      rw [htake]
      exact hall

end Items

end Search
end IndieWorker
