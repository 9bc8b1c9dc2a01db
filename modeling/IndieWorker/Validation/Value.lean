import IndieWorker.Lib.Binary64

/-!
# JSON values as `serde_json` holds them

A number is an unsigned or a negative 64-bit integer, or a double; equality
never crosses these three.  An object is the list of its entries in key order,
one for each key.  The accessors answer `none` on a value of another kind.
-/

namespace IndieWorker
namespace Validation

/-- `serde_json::Number` without arbitrary precision. -/
inductive Number where
  | posInt (n : UInt64)
  | negInt (n : ℤ) (negative : -2 ^ 63 ≤ n ∧ n < 0)
  | float (x : Binary64)
  deriving DecidableEq

namespace Number

def isF64 : Number → Bool
  | .float _ => true
  | _ => false

def asU64 : Number → Option UInt64
  | .posInt n => some n
  | _ => none

/-- An integer is rounded to the nearest double. -/
def asF64 : Number → Binary64
  | .posInt n => .ofNat n.toNat n.toNat_lt
  | .negInt n h => (Binary64.ofNat n.natAbs (by omega)).neg
  | .float x => x

/-- The number itself. -/
def exact : Number → ℚ
  | .posInt n => n.toNat
  | .negInt n _ => n
  | .float x => x.value

theorem asF64_value_of_representable {n : Number} (h : Representable n.exact) :
    n.asF64.value = n.exact := by
  cases n with
  | posInt n =>
    show (roundNat n.toNat : ℚ) = n.toNat
    rw [roundNat_of_representable h]
  | negInt n hn =>
    have habs : ((n.natAbs : ℕ) : ℚ) = -n := by
      have hint : ((n.natAbs : ℕ) : ℤ) = -n := by omega
      rw [← Int.cast_natCast, hint, Int.cast_neg]
    have hrep : Representable (n.natAbs : ℚ) := by
      rw [habs]
      exact representable_neg h
    show -(roundNat n.natAbs : ℚ) = n
    rw [roundNat_of_representable hrep, habs, neg_neg]
  | float x => rfl

end Number

/-- `serde_json::Value`. -/
inductive Value where
  | null
  | bool (b : Bool)
  | number (n : Number)
  | string (s : String)
  | array (items : List Value)
  | object (members : List (String × Value))

/-- The entries of an object. -/
abbrev Map := List (String × Value)

namespace Value

mutual

/-- `Value::eq`: equal kind and equal contents. -/
def decEq : (v w : Value) → Decidable (v = w)
  | .null, w => match w with
    | .null => isTrue rfl
    | .bool _ | .number _ | .string _ | .array _ | .object _ => isFalse nofun
  | .bool a, w => match w with
    | .bool b => decidable_of_iff (a = b) (by simp)
    | .null | .number _ | .string _ | .array _ | .object _ => isFalse nofun
  | .number a, w => match w with
    | .number b => decidable_of_iff (a = b) (by simp)
    | .null | .bool _ | .string _ | .array _ | .object _ => isFalse nofun
  | .string a, w => match w with
    | .string b => decidable_of_iff (a = b) (by simp)
    | .null | .bool _ | .number _ | .array _ | .object _ => isFalse nofun
  | .array as, w => match w with
    | .array bs =>
      have := decEqItems as bs
      decidable_of_iff (as = bs) (by simp)
    | .null | .bool _ | .number _ | .string _ | .object _ => isFalse nofun
  | .object as, w => match w with
    | .object bs =>
      have := decEqMembers as bs
      decidable_of_iff (as = bs) (by simp)
    | .null | .bool _ | .number _ | .string _ | .array _ => isFalse nofun

def decEqItems : (as bs : List Value) → Decidable (as = bs)
  | [], [] => isTrue rfl
  | [], _ :: _ => isFalse nofun
  | _ :: _, [] => isFalse nofun
  | a :: as, b :: bs =>
    have := decEq a b
    have := decEqItems as bs
    decidable_of_iff (a = b ∧ as = bs) (by simp)

def decEqMembers : (as bs : List (String × Value)) → Decidable (as = bs)
  | [], [] => isTrue rfl
  | [], _ :: _ => isFalse nofun
  | _ :: _, [] => isFalse nofun
  | (k, a) :: as, (l, b) :: bs =>
    have := decEq a b
    have := decEqMembers as bs
    decidable_of_iff ((k = l ∧ a = b) ∧ as = bs) (by simp)

end

instance : DecidableEq Value := decEq

def asStr : Value → Option String
  | .string s => some s
  | _ => none

def asU64 : Value → Option UInt64
  | .number n => n.asU64
  | _ => none

def asF64 : Value → Option Binary64
  | .number n => some n.asF64
  | _ => none

def asObject : Value → Option Map
  | .object members => some members
  | _ => none

@[simp] theorem asStr_eq_some {v : Value} {s : String} : v.asStr = some s ↔ v = .string s := by
  cases v <;> simp [asStr]

@[simp] theorem asU64_eq_some {v : Value} {n : UInt64} :
    v.asU64 = some n ↔ v = .number (.posInt n) := by
  cases v with
  | number m => cases m <;> simp [asU64, Number.asU64]
  | _ => simp [asU64]

@[simp] theorem asF64_eq_some {v : Value} {x : Binary64} :
    v.asF64 = some x ↔ ∃ n : Number, v = .number n ∧ n.asF64 = x := by
  cases v <;> simp [asF64]

@[simp] theorem asObject_eq_some {v : Value} {members : Map} :
    v.asObject = some members ↔ v = .object members := by
  cases v <;> simp [asObject]

/-- `Value::get` with a string key. -/
def get (v : Value) (key : String) : Option Value := v.asObject.bind (List.lookup key)

end Value

theorem lookup_eq_some_iff {α : Type} {entries : List (String × α)}
    (hnodup : (entries.map Prod.fst).Nodup) {key : String} {v : α} :
    entries.lookup key = some v ↔ (key, v) ∈ entries := by
  induction entries with
  | nil => simp
  | cons entry entries ih =>
    obtain ⟨k, w⟩ := entry
    obtain ⟨hk, hnodup⟩ := List.nodup_cons.mp hnodup
    rw [List.lookup_cons, List.mem_cons, Prod.mk.injEq]
    by_cases heq : key = k
    · subst heq
      have hnot : (key, v) ∉ entries := by
        intro hmem
        have := List.mem_map_of_mem (f := Prod.fst) hmem
        exact hk this
      simp [hnot, eq_comm]
    · rw [beq_false_of_ne heq]
      simp [heq, ih hnodup]

namespace Map

def get (map : Map) (key : String) : Option Value := List.lookup key map

def keys (map : Map) : List String := map.map Prod.fst

theorem isSome_get_iff {map : Map} {key : String} : (map.get key).isSome ↔ key ∈ map.keys := by
  induction map with
  | nil => simp [get, keys]
  | cons member map ih =>
    obtain ⟨k, v⟩ := member
    rw [get, keys] at ih
    rw [get, keys, List.lookup_cons, List.map_cons, List.mem_cons]
    by_cases h : key = k
    · simp [h]
    · simp [h, ih, beq_false_of_ne h]

theorem mem_of_get {map : Map} {key : String} {v : Value} (h : map.get key = some v) :
    (key, v) ∈ map := by
  induction map with
  | nil => cases h
  | cons member map ih =>
    obtain ⟨k, w⟩ := member
    rw [get, List.lookup_cons] at h
    by_cases hk : key = k
    · subst hk
      simp only [beq_self_eq_true, Option.some.injEq] at h
      rw [h]
      exact List.mem_cons_self
    · rw [beq_false_of_ne hk] at h
      exact List.mem_cons_of_mem _ (ih h)

end Map

end Validation
end IndieWorker
