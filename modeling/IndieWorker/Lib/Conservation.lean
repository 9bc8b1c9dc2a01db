/-
Quantities that a run conserves.

Every step of a machine takes something out of a stock and puts something in.  If
each step balances, so does the whole run: what was put in, with the stock at the
start, is what was taken out, with the stock at the end.
-/
import IndieWorker.Lib.Run

namespace IndieWorker
namespace Run

variable {σ ε ο : Type} {step : σ → ε → Option (σ × ο)}

/-- The sum of a quantity over the entries of a history. -/
def total (amount : Entry σ ε ο → Nat) (h : List (Entry σ ε ο)) : Nat := (h.map amount).sum

theorem total_nil (amount : Entry σ ε ο → Nat) : total amount [] = 0 := rfl

theorem total_concat (amount : Entry σ ε ο → Nat) (h : List (Entry σ ε ο)) (x : Entry σ ε ο) :
    total amount (h ++ [x]) = total amount h + amount x := by
  simp [total]

/-- The rule for stocks. -/
theorem total_balance (stock : σ → Nat) (taken put : Entry σ ε ο → Nat)
    (hstep : ∀ s e t o, step s e = some (t, o) →
      taken ⟨s, e, o, t⟩ + stock t = stock s + put ⟨s, e, o, t⟩)
    (s : σ) (es : List ε) :
    total taken (trace step s es) + stock (final step s es) =
      stock s + total put (trace step s es) := by
  refine history_invariant_start (s := s)
    (fun h t => total taken h + stock t = stock s + total put h) ?_ ?_ es
  · rw [total_nil, total_nil]
    omega
  · intro h t e t' o hsum hte
    have hbalance := hstep t e t' o hte
    rw [total_concat, total_concat]
    omega

/-- What is less at each entry is less in total. -/
theorem total_le_total {small large : Entry σ ε ο → Nat} {h : List (Entry σ ε ο)}
    (hle : ∀ x ∈ h, small x ≤ large x) : total small h ≤ total large h := by
  induction h with
  | nil => exact Nat.le_refl 0
  | cons x h ih =>
    have hx : small x ≤ large x := hle x List.mem_cons_self
    have hrest : total small h ≤ total large h := ih fun y hy => hle y (List.mem_cons_of_mem x hy)
    show small x + total small h ≤ large x + total large h
    omega

end Run
end IndieWorker
