/-
Languages of words over character classes.

`one p` is the language of the one-letter words whose letter satisfies `p`; its
powers and its star are the words all of whose letters do.  `fields` is the
language of rows of such words, of given lengths, with a separator between them:
a word is one exactly when splitting it at the separator gives those lengths.
-/
import Mathlib.Computability.Language
import Mathlib.Data.List.Forall2

namespace IndieWorker
namespace Words

open Computability

variable {α : Type}

def one (p : α → Bool) : Language α := {w | ∃ c, p c = true ∧ w = [c]}

variable {p : α → Bool} {l : Language α} {w : List α}

theorem mem_one : w ∈ one p ↔ ∃ c, p c = true ∧ w = [c] := Iff.rfl

theorem mem_one_mul : w ∈ one p * l ↔ ∃ c v, w = c :: v ∧ p c = true ∧ v ∈ l := by
  rw [Language.mem_mul]
  constructor
  · intro h
    obtain ⟨a, ⟨c, hc, rfl⟩, v, hv, rfl⟩ := h
    exact ⟨c, v, rfl, hc, hv⟩
  · intro h
    obtain ⟨c, v, rfl, hc, hv⟩ := h
    exact ⟨[c], ⟨c, hc, rfl⟩, v, hv, rfl⟩

theorem mem_one_pow {n : ℕ} : w ∈ one p ^ n ↔ w.length = n ∧ ∀ c ∈ w, p c = true := by
  induction n generalizing w with
  | zero =>
    rw [pow_zero, Language.mem_one, List.length_eq_zero_iff]
    constructor
    · intro heq
      subst heq
      exact ⟨rfl, by simp⟩
    · exact fun h => h.1
  | succ n ih =>
    rw [pow_succ', mem_one_mul]
    constructor
    · intro hex
      obtain ⟨c, v, rfl, hc, hv⟩ := hex
      obtain ⟨hlen, hall⟩ := ih.mp hv
      exact ⟨by rw [List.length_cons, hlen], List.forall_mem_cons.mpr ⟨hc, hall⟩⟩
    · intro hand
      obtain ⟨hlen, hall⟩ := hand
      obtain ⟨c, v, rfl⟩ := List.exists_cons_of_length_eq_add_one hlen
      obtain ⟨hc, hall⟩ := List.forall_mem_cons.mp hall
      exact ⟨c, v, rfl, hc, ih.mpr ⟨Nat.succ.inj hlen, hall⟩⟩

theorem mem_one_kstar : w ∈ (one p)∗ ↔ ∀ c ∈ w, p c = true := by
  rw [Language.kstar_eq_iSup_pow, Language.mem_iSup]
  constructor
  · intro h
    obtain ⟨n, hn⟩ := h
    exact (mem_one_pow.mp hn).2
  · intro hall
    exact ⟨w.length, mem_one_pow.mpr ⟨rfl, hall⟩⟩

/-- Words of the given lengths over `p`, separated by `sep`. -/
def fields [BEq α] (p : α → Bool) (sep : α) : List ℕ → Language α
  | [] => 0
  | [n] => one p ^ n
  | n :: ns => one p ^ n * one (· == sep) * fields p sep ns

/-- Every letter of such a row satisfies `p` or is a separator. -/
theorem of_mem_fields [BEq α] [LawfulBEq α] {sep : α} {widths : List ℕ}
    (hw : w ∈ fields p sep widths) : ∀ c ∈ w, p c = true ∨ c = sep := by
  induction widths generalizing w with
  | nil => exact absurd hw (Language.notMem_zero w)
  | cons n ns ih =>
    rcases ns with _ | ⟨m, ms⟩
    · exact fun c hc => Or.inl ((mem_one_pow.mp hw).2 c hc)
    · rw [fields, mul_assoc, Language.mem_mul] at hw
      · obtain ⟨part, hpart, tail, htail, rfl⟩ := hw
        obtain ⟨x, rest, rfl, hx, hrest⟩ := mem_one_mul.mp htail
        intro c hc
        rcases List.mem_append.mp hc with hc | hc
        · exact Or.inl ((mem_one_pow.mp hpart).2 c hc)
        · rcases List.mem_cons.mp hc with rfl | hc
          · exact Or.inr (eq_of_beq hx)
          · exact ih hrest c hc
      · simp

theorem mem_fields_iff [BEq α] [LawfulBEq α] {sep : α} (hsep : p sep = false) {widths : List ℕ} :
    w ∈ fields p sep widths ↔
      List.Forall₂ (fun n part => part ∈ one p ^ n) widths (w.splitOn sep) := by
  have hfree : ∀ {n : ℕ} {part : List α}, part ∈ one p ^ n → sep ∉ part := by
    intro n part hpart hmem
    rw [(mem_one_pow.mp hpart).2 sep hmem] at hsep
    cases hsep
  induction widths generalizing w with
  | nil =>
    rw [fields, List.forall₂_nil_left_iff]
    exact ⟨fun h => absurd h (Language.notMem_zero w), fun h => absurd h (List.splitOn_ne_nil _ _)⟩
  | cons n ns ih =>
    rcases ns with _ | ⟨m, ms⟩
    · rw [fields]
      constructor
      · intro hw
        rw [List.splitOn_eq_singleton (hfree hw)]
        exact .cons hw .nil
      · intro h
        obtain ⟨part, rest, hpart, hrest, heq⟩ := List.forall₂_cons_left_iff.mp h
        rw [List.forall₂_nil_left_iff] at hrest
        have hw : [sep].intercalate (w.splitOn sep) = w := List.intercalate_splitOn sep
        rw [heq, hrest] at hw
        have hpw : part = w := by simpa using hw
        exact hpw ▸ hpart
    · rw [fields, mul_assoc, Language.mem_mul]
      · constructor
        · intro hex
          obtain ⟨part, hpart, tail, htail, rfl⟩ := hex
          obtain ⟨c, rest, rfl, hc, hrest⟩ := mem_one_mul.mp htail
          obtain rfl : c = sep := eq_of_beq hc
          rw [List.splitOn_append_cons_self_of_not_mem (hfree hpart)]
          exact .cons hpart (ih.mp hrest)
        · intro h
          obtain ⟨part, rest, hpart, hrest, heq⟩ := List.forall₂_cons_left_iff.mp h
          have hw : [sep].intercalate (w.splitOn sep) = w := List.intercalate_splitOn sep
          have hne : rest ≠ [] := by
            intro hsame
            subst hsame
            cases hrest
          rw [heq, List.intercalate_cons_of_ne_nil hne, List.append_assoc,
            List.singleton_append] at hw
          have hsplit : (w.splitOn sep).tail = ([sep].intercalate rest).splitOn sep := by
            rw [← hw, List.splitOn_append_cons_self_of_not_mem (hfree hpart)]
            rfl
          rw [heq, List.tail_cons] at hsplit
          refine ⟨part, hpart, _, mem_one_mul.mpr ⟨sep, _, rfl, beq_self_eq_true sep, ?_⟩, hw⟩
          exact ih.mpr (hsplit ▸ hrest)
      · simp

end Words
end IndieWorker
