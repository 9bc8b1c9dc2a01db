/-
Fixed-width big-endian numbers as byte lists.

`beBytes` writes and `beValue` reads, and on the lists and numbers of one width
each undoes the other.
-/
import Mathlib.Algebra.Ring.Nat
import Mathlib.Data.List.Basic
import Mathlib.Data.List.Induction

namespace IndieWorker
namespace BigEndian

/-- The low `n` bytes of `v`, most significant first. -/
def beBytes : Nat → Nat → List UInt8
  | 0, _ => []
  | n + 1, v => beBytes n (v / 256) ++ [UInt8.ofNat (v % 256)]

/-- The number a list of bytes spells, most significant first. -/
def beValue (bs : List UInt8) : Nat :=
  bs.foldl (fun acc b => acc * 256 + b.toNat) 0

@[simp] theorem beBytes_length (n v : Nat) : (beBytes n v).length = n := by
  induction n generalizing v with
  | zero => rfl
  | succ n ih => simp [beBytes, ih]

@[simp] theorem beValue_nil : beValue [] = 0 := rfl

@[simp] theorem beValue_concat (bs : List UInt8) (b : UInt8) :
    beValue (bs ++ [b]) = beValue bs * 256 + b.toNat := by
  simp [beValue, List.foldl_append]

theorem beValue_lt (bs : List UInt8) : beValue bs < 256 ^ bs.length := by
  induction bs using List.reverseRecOn with
  | nil => exact Nat.one_pos
  | append_singleton bs b ih =>
    have hb := b.toNat_lt
    rw [beValue_concat, List.length_append, List.length_singleton, Nat.pow_succ]
    omega

theorem beValue_beBytes {n v : Nat} (h : v < 256 ^ n) : beValue (beBytes n v) = v := by
  induction n generalizing v with
  | zero =>
    rw [Nat.pow_zero] at h
    rw [Nat.lt_one_iff.mp h]
    rfl
  | succ n ih =>
    have hdiv : v / 256 < 256 ^ n := by
      rw [Nat.div_lt_iff_lt_mul (by omega), ← Nat.pow_succ]
      exact h
    have hbyte : (UInt8.ofNat (v % 256)).toNat = v % 256 := by
      rw [UInt8.toNat_ofNat']
      omega
    rw [beBytes, beValue_concat, ih hdiv, hbyte]
    omega

theorem beBytes_beValue (bs : List UInt8) : beBytes bs.length (beValue bs) = bs := by
  induction bs using List.reverseRecOn with
  | nil => rfl
  | append_singleton bs b ih =>
    have hb := b.toNat_lt
    have hdiv : (beValue bs * 256 + b.toNat) / 256 = beValue bs := by omega
    have hmod : (beValue bs * 256 + b.toNat) % 256 = b.toNat := by omega
    rw [List.length_append, List.length_singleton, beBytes, beValue_concat, hdiv, hmod, ih,
      UInt8.ofNat_toNat]

/-- The bytes of one width are exactly the numbers below it. -/
theorem eq_beBytes_iff {n v : Nat} {bs : List UInt8} (hv : v < 256 ^ n) :
    bs = beBytes n v ↔ bs.length = n ∧ beValue bs = v := by
  constructor
  · intro heq
    subst heq
    exact ⟨beBytes_length n v, beValue_beBytes hv⟩
  · intro h
    obtain ⟨rfl, rfl⟩ := h
    exact (beBytes_beValue bs).symm

end BigEndian
end IndieWorker
