/-
Matching an expression by backtracking.

An expression is run with a continuation, which is given what is left of the
input.  A repetition is greedy: it tries one more turn before it goes on, and a
turn beyond the least number fails if it takes nothing.  `finds_run` says that this
search succeeds exactly when some front of the input is a word of the language of
the expression and the continuation accepts the rest.
-/
import IndieWorker.Lib.Words

namespace IndieWorker
namespace Backtracking

open Words Computability

variable {α β : Type}

inductive Expr (α : Type) where
  | empty
  | one (p : α → Bool)
  | seq (a b : Expr α)
  | alt (a b : Expr α)
  /-- `min` times and then at most `more` times, or as often as it goes. -/
  | rep (a : Expr α) (min : ℕ) (more : Option ℕ)

abbrev Matcher (α : Type) : Type := (List α → Bool) → List α → Bool

def times (m : Matcher α) : ℕ → Matcher α
  | 0, k => k
  | n + 1, k => m (times m n k)

def upTo (m : Matcher α) : ℕ → Matcher α
  | 0, k, x => k x
  | n + 1, k, x => m (fun y => decide (y.length ≠ x.length) && upTo m n k y) x || k x

namespace Expr

def run : Expr α → Matcher α
  | empty, k, x => k x
  | one _, _, [] => false
  | one p, k, c :: x => p c && k x
  | seq a b, k, x => a.run (b.run k) x
  | alt a b, k, x => a.run k x || b.run k x
  -- each turn takes something, so that there are no more turns than input
  | rep a min more, k, x => times a.run min (fun y => upTo a.run (more.getD y.length) k y) x

/-- The expression between two anchors. -/
def test (e : Expr α) (x : List α) : Bool := e.run List.isEmpty x

def seqs (es : List (Expr α)) : Expr α := es.foldr seq empty

def language : Expr α → Language α
  | empty => 1
  | one p => Words.one p
  | seq a b => a.language * b.language
  | alt a b => a.language + b.language
  | rep a min none => a.language ^ min * a.language∗
  | rep a min (some more) => a.language ^ min * (1 + a.language) ^ more

end Expr

/-! ## The search finds the words of the language -/

/-- The matcher goes on behind every front that is a word of `l`, and no other. -/
def Finds (m : Matcher α) (l : Language α) : Prop :=
  ∀ k x, m k x = true ↔ ∃ front rest, x = front ++ rest ∧ front ∈ l ∧ k rest = true

variable {m m' : Matcher α} {l l' : Language α}

theorem finds_one {p : α → Bool} : Finds (Expr.one p).run (Words.one p) := by
  intro k x
  cases x with
  | nil =>
    show false = true ↔ _
    refine iff_of_false Bool.false_ne_true fun hex => ?_
    obtain ⟨front, rest, heq, ⟨c, -, rfl⟩, -⟩ := hex
    cases heq
  | cons c x =>
    show (p c && k x) = true ↔ _
    rw [Bool.and_eq_true]
    constructor
    · exact fun h => ⟨[c], x, rfl, ⟨c, h.1, rfl⟩, h.2⟩
    · intro hex
      obtain ⟨front, rest, heq, ⟨d, hd, rfl⟩, hk⟩ := hex
      cases heq
      exact ⟨hd, hk⟩

theorem Finds.skip : Finds (fun k x => k x) (1 : Language α) := by
  intro k x
  constructor
  · exact fun h => ⟨[], x, rfl, rfl, h⟩
  · intro hex
    obtain ⟨front, rest, rfl, hfront, hk⟩ := hex
    rw [show front = [] from hfront]
    exact hk

theorem Finds.mul (h : Finds m l) (h' : Finds m' l') : Finds (fun k => m (m' k)) (l * l') := by
  intro k x
  rw [h]
  constructor
  · intro hex
    obtain ⟨front, rest, rfl, hfront, hrest⟩ := hex
    obtain ⟨front', rest', rfl, hfront', hk⟩ := (h' k rest).mp hrest
    exact ⟨front ++ front', rest', by rw [List.append_assoc],
      Language.append_mem_mul hfront hfront', hk⟩
  · intro hex
    obtain ⟨_, rest, rfl, hfront, hk⟩ := hex
    obtain ⟨a, ha, b, hb, rfl⟩ := Language.mem_mul.mp hfront
    exact ⟨a, b ++ rest, List.append_assoc a b rest, ha, (h' k _).mpr ⟨b, rest, rfl, hb, hk⟩⟩

theorem Finds.add (h : Finds m l) (h' : Finds m' l') :
    Finds (fun k x => m k x || m' k x) (l + l') := by
  intro k x
  rw [Bool.or_eq_true, h, h']
  constructor
  · intro hor
    rcases hor with ⟨front, rest, heq, hfront, hk⟩ | ⟨front, rest, heq, hfront, hk⟩
    · exact ⟨front, rest, heq, Or.inl hfront, hk⟩
    · exact ⟨front, rest, heq, Or.inr hfront, hk⟩
  · intro hex
    obtain ⟨front, rest, heq, hfront | hfront, hk⟩ := hex
    · exact Or.inl ⟨front, rest, heq, hfront, hk⟩
    · exact Or.inr ⟨front, rest, heq, hfront, hk⟩

theorem Finds.times (h : Finds m l) (n : ℕ) : Finds (times m n) (l ^ n) := by
  induction n with
  | zero => exact Finds.skip
  | succ n ih =>
    rw [pow_succ']
    exact h.mul ih

theorem nil_mem_one_add : [] ∈ 1 + l := Or.inl rfl

theorem nil_mem_pow (n : ℕ) : [] ∈ (1 + l) ^ n := by
  induction n with
  | zero => exact rfl
  | succ n ih =>
    rw [pow_succ']
    exact Language.mem_mul.mpr ⟨[], nil_mem_one_add, [], ih, rfl⟩

/-- One turn more is one word more, unless the word is empty. -/
theorem Finds.upTo (h : Finds m l) (n : ℕ) : Finds (upTo m n) ((1 + l) ^ n) := by
  -- what is found in `n` turns is found in one turn more
  have hmore : ∀ n k x, Backtracking.upTo m n k x = true →
      Backtracking.upTo m (n + 1) k x = true := by
    intro n k
    induction n with
    | zero =>
      intro x hk
      rw [Backtracking.upTo, Bool.or_eq_true]
      exact Or.inr hk
    | succ n ih =>
      intro x hn
      rw [Backtracking.upTo, Bool.or_eq_true, h] at hn ⊢
      refine hn.imp_left fun hex => ?_
      obtain ⟨front, rest, heq, hfront, hrest⟩ := hex
      obtain ⟨hne, hrest⟩ := Bool.and_eq_true_iff.mp hrest
      exact ⟨front, rest, heq, hfront, Bool.and_eq_true_iff.mpr ⟨hne, ih rest hrest⟩⟩
  induction n with
  | zero => exact Finds.skip
  | succ n ih =>
    intro k x
    rw [pow_succ']
    constructor
    · intro hrun
      rw [Backtracking.upTo, Bool.or_eq_true, h] at hrun
      rcases hrun with ⟨front, rest, rfl, hfront, hrest⟩ | hk
      · obtain ⟨front', rest', rfl, hfront', hk⟩ := (ih k rest).mp (Bool.and_eq_true_iff.mp hrest).2
        exact ⟨front ++ front', rest', by rw [List.append_assoc],
          Language.append_mem_mul (Or.inr hfront) hfront', hk⟩
      · exact ⟨[], x, rfl, Language.mem_mul.mpr ⟨[], nil_mem_one_add, [], nil_mem_pow n, rfl⟩, hk⟩
    · intro hex
      obtain ⟨_, rest, rfl, hfront, hk⟩ := hex
      obtain ⟨a, ha, b, hb, rfl⟩ := Language.mem_mul.mp hfront
      have hb' : Backtracking.upTo m n k (b ++ rest) = true := (ih k _).mpr ⟨b, rest, rfl, hb, hk⟩
      by_cases hnil : a = []
      · subst hnil
        exact hmore n k _ hb'
      · have hal : a ∈ l := ha.resolve_left hnil
        have hlen : (b ++ rest).length ≠ (a ++ b ++ rest).length := by
          have := List.length_pos_iff.mpr hnil
          simp only [List.length_append]
          omega
        rw [Backtracking.upTo, Bool.or_eq_true, h]
        exact Or.inl ⟨a, b ++ rest, List.append_assoc a b rest, hal,
          Bool.and_eq_true_iff.mpr ⟨decide_eq_true hlen, hb'⟩⟩

/-- A word of the star that lies in the input takes at most as many turns. -/
theorem mem_pow_of_mem_kstar {front : List α} {n : ℕ} (h : front ∈ l∗) (hn : front.length ≤ n) :
    front ∈ (1 + l) ^ n := by
  rw [Language.mem_kstar_iff_exists_nonempty] at h
  obtain ⟨words, rfl, hwords⟩ := h
  induction words generalizing n with
  | nil => exact nil_mem_pow n
  | cons w words ih =>
    obtain ⟨⟨hw, hne⟩, hwords⟩ := List.forall_mem_cons.mp hwords
    have hpos := List.length_pos_iff.mpr hne
    rw [List.flatten_cons, List.length_append] at hn
    obtain ⟨n, rfl⟩ : ∃ n', n = n' + 1 := ⟨n - 1, by omega⟩
    rw [List.flatten_cons, pow_succ']
    exact Language.append_mem_mul (Or.inr hw) (ih hwords (by omega))

theorem Finds.kstar (h : Finds m l) : Finds (fun k x => Backtracking.upTo m x.length k x) l∗ := by
  intro k x
  show Backtracking.upTo m x.length k x = true ↔ _
  rw [h.upTo x.length k x]
  have hle : (1 + l) ^ x.length ≤ l∗ := by
    calc (1 + l) ^ x.length ≤ (1 + l)∗ := pow_le_kstar
      _ ≤ (l∗)∗ := kstar_mono (add_le one_le_kstar le_kstar)
      _ = l∗ := kstar_idem l
  constructor
  · intro hex
    obtain ⟨front, rest, heq, hfront, hk⟩ := hex
    exact ⟨front, rest, heq, hle hfront, hk⟩
  · intro hex
    obtain ⟨front, rest, heq, hfront, hk⟩ := hex
    have hlen : front.length ≤ x.length := by
      rw [heq, List.length_append]
      omega
    exact ⟨front, rest, heq, mem_pow_of_mem_kstar hfront hlen, hk⟩

namespace Expr

theorem finds_run (e : Expr α) : Finds e.run e.language := by
  induction e with
  | empty => exact Finds.skip
  | one p => exact finds_one
  | seq a b iha ihb => exact iha.mul ihb
  | alt a b iha ihb => exact iha.add ihb
  | rep a min more ih =>
    cases more with
    | none => exact (ih.times min).mul ih.kstar
    | some more => exact (ih.times min).mul (ih.upTo more)

theorem test_iff {e : Expr α} {x : List α} : e.test x = true ↔ x ∈ e.language := by
  rw [test, finds_run]
  constructor
  · intro hex
    obtain ⟨front, rest, rfl, hfront, hrest⟩ := hex
    rw [List.isEmpty_iff.mp hrest, List.append_nil]
    exact hfront
  · exact fun h => ⟨x, [], (List.append_nil x).symm, h, rfl⟩

/-! ## Expressions over another alphabet -/

def comap (f : β → α) : Expr α → Expr β
  | empty => empty
  | one p => one fun c => p (f c)
  | seq a b => seq (a.comap f) (b.comap f)
  | alt a b => alt (a.comap f) (b.comap f)
  | rep a min more => rep (a.comap f) min more

theorem run_map (f : β → α) (e : Expr α) (k : List α → Bool) (x : List β) :
    e.run k (x.map f) = (e.comap f).run (fun y => k (y.map f)) x := by
  induction e generalizing k x with
  | empty => rfl
  | one p =>
    cases x with
    | nil => rfl
    | cons c x => rfl
  | seq a b iha ihb =>
    show a.run (b.run k) (x.map f) = (a.comap f).run ((b.comap f).run _) x
    rw [iha]
    congr 1
    funext y
    exact ihb k y
  | alt a b iha ihb =>
    show (a.run k (x.map f) || b.run k (x.map f)) = _
    rw [iha, ihb]
    rfl
  | rep a min more ih =>
    have hupTo : ∀ (n : ℕ) (k : List α → Bool) (y : List β), upTo a.run n k (y.map f) =
        upTo (a.comap f).run n (fun z => k (z.map f)) y := by
      intro n k
      induction n with
      | zero => exact fun y => rfl
      | succ n ihn =>
        intro y
        rw [upTo, upTo, ih]
        simp only [List.length_map, ihn]
    have htimes : ∀ (n : ℕ) (k : List α → Bool) (y : List β), times a.run n k (y.map f) =
        times (a.comap f).run n (fun z => k (z.map f)) y := by
      intro n k
      induction n with
      | zero => exact fun y => rfl
      | succ n ihn =>
        intro y
        rw [times, times, ih]
        simp only [ihn]
    show times a.run min (fun y => upTo a.run (more.getD y.length) k y) (x.map f) = _
    rw [htimes]
    simp only [hupTo, List.length_map]
    rfl

theorem test_map (f : β → α) (e : Expr α) (x : List β) : e.test (x.map f) = (e.comap f).test x := by
  rw [test, test, run_map]
  congr 1
  funext y
  cases y with
  | nil => rfl
  | cons c y => rfl

/-- Every class of the expression lies within `q`. -/
def Within (q : α → Prop) : Expr α → Prop
  | empty => True
  | one p => ∀ c, p c = true → q c
  | seq a b => a.Within q ∧ b.Within q
  | alt a b => a.Within q ∧ b.Within q
  | rep a _ _ => a.Within q

theorem within_comap {q : α → Prop} {f : β → α} {e : Expr α} (h : e.Within q) :
    (e.comap f).Within fun c => q (f c) := by
  induction e with
  | empty => trivial
  | one p => exact fun c hc => h (f c) hc
  | seq a b iha ihb => exact ⟨iha h.1, ihb h.2⟩
  | alt a b iha ihb => exact ⟨iha h.1, ihb h.2⟩
  | rep a min more ih => exact ih h

theorem of_mem_pow {q : α → Prop} {n : ℕ} (h : ∀ w ∈ l, ∀ c ∈ w, q c) :
    ∀ w ∈ l ^ n, ∀ c ∈ w, q c := by
  induction n with
  | zero =>
    intro w hw c hc
    rw [show w = [] from hw] at hc
    cases hc
  | succ n ih =>
    intro w hw c hc
    rw [pow_succ'] at hw
    obtain ⟨a, ha, b, hb, rfl⟩ := Language.mem_mul.mp hw
    exact (List.mem_append.mp hc).elim (h a ha c) (ih b hb c)

theorem of_mem_language {q : α → Prop} {e : Expr α} (he : e.Within q) :
    ∀ w ∈ e.language, ∀ c ∈ w, q c := by
  induction e with
  | empty =>
    intro w hw c hc
    rw [show w = [] from hw] at hc
    cases hc
  | one p =>
    intro w hw c hc
    obtain ⟨d, hd, rfl⟩ := hw
    rw [List.mem_singleton.mp hc]
    exact he d hd
  | seq a b iha ihb =>
    intro w hw c hc
    obtain ⟨u, hu, v, hv, rfl⟩ := Language.mem_mul.mp hw
    exact (List.mem_append.mp hc).elim (iha he.1 u hu c) (ihb he.2 v hv c)
  | alt a b iha ihb =>
    intro w hw
    exact hw.elim (iha he.1 w) (ihb he.2 w)
  | rep a min more ih =>
    intro w hw c hc
    cases more with
    | none =>
      obtain ⟨u, hu, v, hv, rfl⟩ := Language.mem_mul.mp hw
      rw [Language.kstar_eq_iSup_pow, Language.mem_iSup] at hv
      obtain ⟨n, hv⟩ := hv
      exact (List.mem_append.mp hc).elim (of_mem_pow (ih he) u hu c) (of_mem_pow (ih he) v hv c)
    | some more =>
      have hone : ∀ w ∈ 1 + a.language, ∀ c ∈ w, q c := by
        intro w hw c hc
        rcases hw with hw | hw
        · rw [show w = [] from hw] at hc
          cases hc
        · exact ih he w hw c hc
      obtain ⟨u, hu, v, hv, rfl⟩ := Language.mem_mul.mp hw
      exact (List.mem_append.mp hc).elim (of_mem_pow (ih he) u hu c) (of_mem_pow hone v hv c)

end Expr
end Backtracking
end IndieWorker
