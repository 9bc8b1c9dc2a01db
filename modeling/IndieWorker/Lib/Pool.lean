/-
A pool of units, some in use and some promised.

A promise holds a unit until it is redeemed or lapses.  `Move` says what can
happen to a pool: new claims need a free unit, a redeemed promise does not, and
the capacity may change.  The rules say which moves keep a pool within its
capacity.
-/
import Mathlib.Data.Nat.Basic

namespace IndieWorker

structure Pool where
  capacity : Nat
  inUse : Nat
  promised : Nat
  deriving DecidableEq, Repr

namespace Pool

/-- Every unit in use or promised is there. -/
def Fits (p : Pool) : Prop := p.inUse + p.promised ≤ p.capacity

def HasRoom (p : Pool) : Prop := p.inUse + p.promised < p.capacity

inductive Move : Pool → Pool → Prop where
  | promise {p : Pool} (room : p.HasRoom) : Move p { p with promised := p.promised + 1 }
  | enter {p : Pool} (room : p.HasRoom) : Move p { p with inUse := p.inUse + 1 }
  | redeem {capacity inUse promised : Nat} :
      Move ⟨capacity, inUse, promised + 1⟩ ⟨capacity, inUse + 1, promised⟩
  | release {p : Pool} {inUse promised : Nat} (hu : inUse ≤ p.inUse) (hp : promised ≤ p.promised) :
      Move p ⟨p.capacity, inUse, promised⟩
  | resize {p : Pool} (capacity : Nat) : Move p { p with capacity := capacity }

/-- Only a capacity cut below what is in use or promised breaks a pool. -/
theorem Move.fits {p q : Pool} (h : Move p q) (hp : p.Fits)
    (hcut : p.capacity ≤ q.capacity ∨ q.Fits) : q.Fits := by
  rcases hcut with hcap | hq
  · cases h with
    | promise room | enter room =>
      unfold HasRoom at room
      unfold Fits
      simp only
      omega
    | redeem =>
      unfold Fits at hp ⊢
      simp only at hp ⊢
      omega
    | release hu hle =>
      unfold Fits at hp ⊢
      simp only
      omega
    | resize capacity =>
      unfold Fits at hp ⊢
      simp only at hcap ⊢
      omega
  · exact hq

end Pool
end IndieWorker
