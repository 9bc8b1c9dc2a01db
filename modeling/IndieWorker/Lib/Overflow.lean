/-
Fixed-width arithmetic under the two ways a program can be built.

A checked build does not return from an operation that does not fit.  An
unchecked one keeps the low bits.  The saturating operations stop at the ends of
the width in either build.
-/
import Mathlib.Data.UInt

namespace IndieWorker

inductive Build where
  | checked
  | wrapping
  deriving DecidableEq, Repr

namespace Build

/-- `x + y` on `u64`. -/
def add (b : Build) (x y : UInt64) : Option UInt64 :=
  if x.toNat + y.toNat < 2 ^ 64 then some (x + y)
  else
    match b with
    | .checked => none
    | .wrapping => some (x + y)

theorem add_of_lt (b : Build) {x y : UInt64} (h : x.toNat + y.toNat < 2 ^ 64) :
    b.add x y = some (x + y) :=
  if_pos h

theorem add_eq_some {b : Build} {x y z : UInt64} (h : b.add x y = some z) : z = x + y := by
  unfold add at h
  split at h
  · exact (Option.some.inj h).symm
  · cases b
    · cases h
    · exact (Option.some.inj h).symm

/-- `x * y` on `u64`. -/
def mul (b : Build) (x y : UInt64) : Option UInt64 :=
  if x.toNat * y.toNat < 2 ^ 64 then some (x * y)
  else
    match b with
    | .checked => none
    | .wrapping => some (x * y)

theorem mul_of_lt (b : Build) {x y : UInt64} (h : x.toNat * y.toNat < 2 ^ 64) :
    b.mul x y = some (x * y) :=
  if_pos h

theorem toNat_mul_of_lt {x y : UInt64} (h : x.toNat * y.toNat < 2 ^ 64) :
    (x * y).toNat = x.toNat * y.toNat := by
  rw [UInt64.toNat_mul]
  exact Nat.mod_eq_of_lt h

/-- `x + y` on `i64`. -/
def addInt (b : Build) (x y : Int64) : Option Int64 :=
  if -2 ^ 63 ≤ x.toInt + y.toInt ∧ x.toInt + y.toInt < 2 ^ 63 then some (x + y)
  else
    match b with
    | .checked => none
    | .wrapping => some (x + y)

/-- `x - y` on `i64`. -/
def subInt (b : Build) (x y : Int64) : Option Int64 :=
  if -2 ^ 63 ≤ x.toInt - y.toInt ∧ x.toInt - y.toInt < 2 ^ 63 then some (x - y)
  else
    match b with
    | .checked => none
    | .wrapping => some (x - y)

/-- `x - y` on `u32`. -/
def sub32 (b : Build) (x y : UInt32) : Option UInt32 :=
  if y ≤ x then some (x - y)
  else
    match b with
    | .checked => none
    | .wrapping => some (x - y)

theorem sub32_of_le (b : Build) {x y : UInt32} (h : y ≤ x) : b.sub32 x y = some (x - y) :=
  if_pos h

end Build

/-- `x.checked_add(y)`. -/
def checkedAdd (x y : UInt64) : Option UInt64 :=
  if x.toNat + y.toNat < 2 ^ 64 then some (x + y) else none

theorem checkedAdd_eq_some_iff {x y z : UInt64} :
    checkedAdd x y = some z ↔ z.toNat = x.toNat + y.toNat := by
  unfold checkedAdd
  constructor
  · intro h
    split at h
    · next hlt =>
      rw [← Option.some.inj h, UInt64.toNat_add]
      exact Nat.mod_eq_of_lt hlt
    · cases h
  · intro h
    have hlt : x.toNat + y.toNat < 2 ^ 64 := h ▸ z.toNat_lt
    rw [if_pos hlt, Option.some.injEq, ← UInt64.toNat_inj, UInt64.toNat_add, h]
    exact Nat.mod_eq_of_lt hlt

theorem checkedAdd_eq_none_iff {x y : UInt64} :
    checkedAdd x y = none ↔ 2 ^ 64 ≤ x.toNat + y.toNat := by
  unfold checkedAdd
  by_cases h : x.toNat + y.toNat < 2 ^ 64
  · rw [if_pos h]
    exact iff_of_false nofun (Nat.not_le.mpr h)
  · rw [if_neg h]
    exact iff_of_true rfl (Nat.not_lt.mp h)

/-- `x.saturating_sub(y)`. -/
def saturatingSub (x y : UInt64) : UInt64 := if y ≤ x then x - y else 0

theorem saturatingSub_toNat (x y : UInt64) : (saturatingSub x y).toNat = x.toNat - y.toNat := by
  unfold saturatingSub
  split
  · next h => exact UInt64.toNat_sub_of_le x y h
  · next h =>
    rw [UInt64.le_iff_toNat_le] at h
    rw [UInt64.toNat_zero]
    omega

theorem toNat_injective : Function.Injective UInt64.toNat := fun _ _ => UInt64.toNat_inj.mp

theorem toNat_add_one {x : UInt64} (h : x.toNat + 1 < 2 ^ 64) : (x + 1).toNat = x.toNat + 1 := by
  rw [UInt64.toNat_add, UInt64.toNat_one]
  exact Nat.mod_eq_of_lt h

/-- `x.saturating_add(y)` on `u64`. -/
def saturatingAdd (x y : UInt64) : UInt64 :=
  if x.toNat + y.toNat < 2 ^ 64 then x + y else UInt64.ofNat (2 ^ 64 - 1)

theorem saturatingAdd_toNat (x y : UInt64) :
    (saturatingAdd x y).toNat = min (x.toNat + y.toNat) (2 ^ 64 - 1) := by
  unfold saturatingAdd
  split
  · next h =>
    rw [UInt64.toNat_add, Nat.mod_eq_of_lt h]
    omega
  · next h =>
    have hmax : (UInt64.ofNat (2 ^ 64 - 1)).toNat = 2 ^ 64 - 1 := rfl
    rw [hmax]
    omega

theorem min_toNat (x y : UInt64) : (min x y).toNat = min x.toNat y.toNat := by
  show (if x ≤ y then x else y).toNat = _
  by_cases h : x ≤ y
  · rw [if_pos h]
    rw [UInt64.le_iff_toNat_le] at h
    omega
  · rw [if_neg h]
    rw [UInt64.le_iff_toNat_le] at h
    omega

theorem max_toNat (x y : UInt64) : (max x y).toNat = max x.toNat y.toNat := by
  show (if x ≤ y then y else x).toNat = _
  by_cases h : x ≤ y
  · rw [if_pos h]
    rw [UInt64.le_iff_toNat_le] at h
    omega
  · rw [if_neg h]
    rw [UInt64.le_iff_toNat_le] at h
    omega

/-- The greater of two numbers bounds both. -/
instance lawfulOrderMaxUInt64 : Std.LawfulOrderMax UInt64 where
  max_eq_or a b := by
    show (if a ≤ b then b else a) = a ∨ (if a ≤ b then b else a) = b
    split
    · exact .inr rfl
    · exact .inl rfl
  max_le_iff a b c := by
    show (if a ≤ b then b else a) ≤ c ↔ a ≤ c ∧ b ≤ c
    split
    · next h => exact ⟨fun hb => ⟨UInt64.le_trans h hb, hb⟩, fun h => h.2⟩
    · next h =>
      have hba : b ≤ a := UInt64.le_of_lt (UInt64.not_le.mp h)
      exact ⟨fun ha => ⟨ha, UInt64.le_trans hba ha⟩, fun h => h.1⟩

/-! ## Thirty-two bits -/

/-- `x.saturating_add(y)` on `u32`. -/
def saturatingAdd32 (x y : UInt32) : UInt32 :=
  if x.toNat + y.toNat < 2 ^ 32 then x + y else UInt32.ofNat (2 ^ 32 - 1)

/-- `x.checked_add(y)` on `u32`. -/
def checkedAdd32 (x y : UInt32) : Option UInt32 :=
  if x.toNat + y.toNat < 2 ^ 32 then some (x + y) else none

/-- `x.saturating_sub(y)` on `u32`. -/
def saturatingSub32 (x y : UInt32) : UInt32 := if y ≤ x then x - y else 0

/-- A count of rows as a `u32`. -/
def count32 (n : Nat) : UInt32 := if n < 2 ^ 32 then UInt32.ofNat n else UInt32.ofNat (2 ^ 32 - 1)

theorem checkedAdd32_eq_some_iff {x y z : UInt32} :
    checkedAdd32 x y = some z ↔ z.toNat = x.toNat + y.toNat := by
  unfold checkedAdd32
  constructor
  · intro h
    split at h
    · next hlt =>
      rw [← Option.some.inj h, UInt32.toNat_add]
      exact Nat.mod_eq_of_lt hlt
    · cases h
  · intro h
    have hlt : x.toNat + y.toNat < 2 ^ 32 := h ▸ z.toNat_lt
    rw [if_pos hlt, Option.some.injEq, ← UInt32.toNat_inj, UInt32.toNat_add, h]
    exact Nat.mod_eq_of_lt hlt

theorem saturatingAdd32_toNat (x y : UInt32) :
    (saturatingAdd32 x y).toNat = min (x.toNat + y.toNat) (2 ^ 32 - 1) := by
  unfold saturatingAdd32
  split
  · next h =>
    rw [UInt32.toNat_add, Nat.mod_eq_of_lt h]
    omega
  · next h =>
    have hmax : (UInt32.ofNat (2 ^ 32 - 1)).toNat = 2 ^ 32 - 1 := rfl
    rw [hmax]
    omega

theorem saturatingSub32_toNat (x y : UInt32) :
    (saturatingSub32 x y).toNat = x.toNat - y.toNat := by
  unfold saturatingSub32
  split
  · next h => exact UInt32.toNat_sub_of_le x y h
  · next h =>
    rw [UInt32.le_iff_toNat_le] at h
    rw [UInt32.toNat_zero]
    omega

theorem min32_toNat (x y : UInt32) : (min x y).toNat = min x.toNat y.toNat := by
  show (if x ≤ y then x else y).toNat = _
  by_cases h : x ≤ y
  · rw [if_pos h]
    rw [UInt32.le_iff_toNat_le] at h
    omega
  · rw [if_neg h]
    rw [UInt32.le_iff_toNat_le] at h
    omega

theorem count32_toNat (n : Nat) : (count32 n).toNat = min n (2 ^ 32 - 1) := by
  unfold count32
  split
  · next h =>
    rw [UInt32.toNat_ofNat', Nat.mod_eq_of_lt h]
    omega
  · next h =>
    have hmax : (UInt32.ofNat (2 ^ 32 - 1)).toNat = 2 ^ 32 - 1 := rfl
    rw [hmax]
    omega

end IndieWorker
