/-
Numbers, and what is no number.

`Nan K` has one value beside the numbers of `K`.  It compares with nothing, arithmetic
keeps it, and a minimum passes over it.  `PartialCmp` is the comparison of numbers that
may not compare.
-/
import Mathlib.Algebra.Order.Field.Basic

namespace IndieWorker

/-- How two numbers compare, if they do. -/
class PartialCmp (ν : Type) where
  partialCmp : ν → ν → Option Ordering

namespace PartialCmp

variable {ν : Type} [PartialCmp ν]

/-- The comparison, with equality where there is none. -/
def cmpOrEqual (a b : ν) : Ordering := (partialCmp a b).getD .eq

/-- At most as large.  What does not compare is not. -/
def isAtMost (a b : ν) : Bool := (partialCmp a b).any Ordering.isLE

end PartialCmp

inductive Nan (K : Type) where
  | nan
  | number (x : K)
  deriving DecidableEq

namespace Nan

variable {K : Type}

/-- An operation on numbers; without two of them there is no number. -/
def lift (op : K → K → K) : Nan K → Nan K → Nan K
  | .number x, .number y => .number (op x y)
  | _, _ => .nan

instance [Zero K] : Zero (Nan K) := ⟨.number 0⟩

instance [One K] : One (Nan K) := ⟨.number 1⟩

instance [NatCast K] : NatCast (Nan K) := ⟨fun n => .number n⟩

instance [Mul K] : Mul (Nan K) := ⟨lift (· * ·)⟩

instance [Div K] : Div (Nan K) := ⟨lift (· / ·)⟩

instance [Min K] : Min (Nan K) where
  min
    | .nan, b => b
    | a, .nan => a
    | .number x, .number y => .number (min x y)

instance [Ord K] : PartialCmp (Nan K) where
  partialCmp
    | .number x, .number y => some (compare x y)
    | _, _ => none

def abs [Lattice K] [AddGroup K] : Nan K → Nan K
  | .number x => .number |x|
  | .nan => .nan

/-- It is a number. -/
def IsNumber (v : Nan K) : Prop := ∃ x, v = .number x

instance : DecidablePred (IsNumber (K := K))
  | .nan => isFalse nofun
  | .number x => isTrue ⟨x, rfl⟩

end Nan

/-- Numbers of an order compare. -/
instance {K : Type} [LinearOrder K] : PartialCmp K := ⟨fun x y => some (compare x y)⟩

section Numbers

open PartialCmp

variable {K : Type} [LinearOrder K] {x y : K}

@[simp] theorem cmpOrEqual_numbers : cmpOrEqual x y = compare x y := rfl

@[simp] theorem cmpOrEqual_number : cmpOrEqual (Nan.number x) (.number y) = compare x y := rfl

theorem isAtMost_numbers : isAtMost x y = true ↔ x ≤ y :=
  Ordering.ne_gt_iff_isLE.symm.trans compare_le_iff_le

@[simp] theorem isAtMost_number : isAtMost (Nan.number x) (.number y) = isAtMost x y := rfl

theorem isAtMost_trans {a b c : Nan K} (hab : isAtMost a b = true) (hbc : isAtMost b c = true) :
    isAtMost a c = true := by
  cases a with
  | nan => cases hab
  | number x =>
    cases b with
    | nan => cases hab
    | number y =>
      cases c with
      | nan => cases hbc
      | number z =>
        rw [isAtMost_number, isAtMost_numbers] at hab hbc ⊢
        exact hab.trans hbc

end Numbers

end IndieWorker
