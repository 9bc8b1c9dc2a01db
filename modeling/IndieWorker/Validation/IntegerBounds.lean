import IndieWorker.Validation.JsonSchema

/-!
# Bounds on integers

`minimum` and `maximum` are compared as doubles.  Rounding keeps the order of two
integers, so a bound is never reported broken when it holds; it is missed when the
instance and the bound round to one double.
-/

namespace IndieWorker
namespace Validation

/-! ## Rounding integers of either sign -/

namespace Number

variable {n m : Number}

theorem asF64_mono (hn : n.isF64 = false) (hm : m.isF64 = false) (h : n.exact ≤ m.exact) :
    n.asF64.value ≤ m.asF64.value := by
  cases n with
  | float x => cases hn
  | posInt n =>
    cases m with
    | float x => cases hm
    | posInt m =>
      have hle : n.toNat ≤ m.toNat := by exact_mod_cast (show (n.toNat : ℚ) ≤ m.toNat from h)
      show (roundNat n.toNat : ℚ) ≤ roundNat m.toNat
      exact_mod_cast roundNat_mono hle
    | negInt m hneg =>
      have hlt : (m : ℚ) < 0 := by exact_mod_cast hneg.2
      have hnonneg : (0 : ℚ) ≤ n.toNat := Nat.cast_nonneg _
      exact absurd (hnonneg.trans h) (not_le.mpr hlt)
  | negInt n hnneg =>
    cases m with
    | float x => cases hm
    | posInt m =>
      show -(roundNat n.natAbs : ℚ) ≤ roundNat m.toNat
      have hleft : (0 : ℚ) ≤ roundNat n.natAbs := Nat.cast_nonneg _
      have hright : (0 : ℚ) ≤ roundNat m.toNat := Nat.cast_nonneg _
      linarith
    | negInt m hmneg =>
      have hint : n ≤ m := by exact_mod_cast (show (n : ℚ) ≤ m from h)
      have hle : m.natAbs ≤ n.natAbs := by omega
      show -(roundNat n.natAbs : ℚ) ≤ -(roundNat m.natAbs : ℚ)
      apply neg_le_neg
      exact_mod_cast roundNat_mono hle

theorem exact_inj (hn : n.isF64 = false) (hm : m.isF64 = false) :
    n.exact = m.exact ↔ n = m := by
  refine ⟨fun h => ?_, fun h => by rw [h]⟩
  cases n with
  | float x => cases hn
  | posInt n =>
    cases m with
    | float x => cases hm
    | posInt m =>
      have heq : n.toNat = m.toNat := by exact_mod_cast (show (n.toNat : ℚ) = m.toNat from h)
      rw [UInt64.toNat_inj.mp heq]
    | negInt m hneg =>
      have heq : ((n.toNat : ℤ) : ℚ) = m := h
      have : (n.toNat : ℤ) = m := by exact_mod_cast heq
      omega
  | negInt n hneg =>
    cases m with
    | float x => cases hm
    | posInt m =>
      have heq : (n : ℚ) = ((m.toNat : ℤ) : ℚ) := h
      have : n = (m.toNat : ℤ) := by exact_mod_cast heq
      omega
    | negInt m hmneg =>
      have heq : n = m := by exact_mod_cast (show (n : ℚ) = m from h)
      simp only [heq]

/-- The comparison of doubles is that of the integers, unless they share a double. -/
theorem asF64_lt_iff (hn : n.isF64 = false) (hm : m.isF64 = false) :
    n.asF64.value < m.asF64.value ↔ n.exact < m.exact ∧ n.asF64.value ≠ m.asF64.value := by
  constructor
  · intro h
    refine ⟨?_, h.ne⟩
    by_contra hle
    exact absurd (asF64_mono hm hn (not_lt.mp hle)) (not_le.mpr h)
  · intro h
    exact lt_of_le_of_ne (asF64_mono hn hm h.1.le) h.2

theorem asF64_inj_value : n.asF64 = m.asF64 ↔ n.asF64.value = m.asF64.value := by
  constructor
  · intro h
    rw [h]
  · generalize n.asF64 = x
    generalize m.asF64 = y
    intro h
    cases x
    cases y
    cases h
    rfl

end Number

/-! ## What is reported of a number -/

/-- A violation of the rule is among those reported. -/
def Reports (rule : String) (out : List Violation) : Prop := ∃ v ∈ out, v.rule = rule

@[simp] theorem not_reports_nil {rule : String} : ¬ Reports rule [] := by simp [Reports]

@[simp] theorem reports_append {rule : String} {out more : List Violation} :
    Reports rule (out ++ more) ↔ Reports rule out ∨ Reports rule more := by
  simp [Reports, or_and_right, exists_or]

theorem not_reports {rule other : String} {out : List Violation}
    (h : ∀ v ∈ out, v.rule = other) (hne : other ≠ rule) : ¬ Reports rule out := by
  intro hex
  obtain ⟨v, hv, hrule⟩ := hex
  exact hne ((h v hv).symm.trans hrule)

/-- The node that works on a number with the keywords of `map`. -/
structure ReachesNumber (host : Host) (root schema : Value) (map : Map) (n : Number)
    (here : String) : Prop where
  isObject : ∃ own, schema = .object own
  resolves : resolve schema root here = .ok (.object map)
  typed : typeRule host map (kindOf (.number n)) here = none

section Node

variable {host : Host} {root schema : Value} {map : Map} {n b : Number} {here rule : String}
  {room : Nat}

/-- The bounds are reported by the rules for numbers alone. -/
theorem reports_node (h : ReachesNumber host root schema map n here)
    (hrule : rule = "minimum" ∨ rule = "maximum") :
    Reports rule (node host root (room + 1) schema (.number n) here) ↔
      Reports rule (numberRules host map n.asF64 here) := by
  obtain ⟨own, rfl⟩ := h.isObject
  have hnode : node host root (room + 1) (.object own) (.number n) here =
      objectNode host (node host root room) map (.number n) here := by
    rw [node, h.resolves]
  have hkeys : ∀ v ∈ unsupportedKeywords map here, v.rule = "unsupported-keyword" := by
    intro v hv
    obtain ⟨key, -, rfl⟩ := List.mem_map.mp hv
    rfl
  have hconst : ∀ v ∈ constRule host map (.number n) here, v.rule = "const" := by
    unfold constRule
    split
    · split <;> simp [Violation.new]
    · simp
  have henum : ∀ v ∈ enumRule host map (.number n) here, v.rule = "enum" := by
    unfold enumRule
    split
    · split <;> simp [Violation.new]
    · simp
  have honeOf : ∀ v ∈ oneOfRule (node host root room) map (.number n) here,
      v.rule = "one-of" := by
    unfold oneOfRule
    split
    · dsimp only
      split <;> simp [Violation.new]
    · simp
  have hother : "unsupported-keyword" ≠ rule ∧ "const" ≠ rule ∧ "enum" ≠ rule ∧
      "one-of" ≠ rule := by
    rcases hrule with rfl | rfl <;> decide
  rw [hnode, objectNode, h.typed, reports_append, reports_append, reports_append,
    reports_append, or_iff_right (not_reports hkeys hother.1),
    or_iff_left (not_reports honeOf hother.2.2.2),
    or_iff_right (not_or.mpr ⟨not_reports hconst hother.2.1, not_reports henum hother.2.2.1⟩)]
  rfl

theorem reports_minimum (h : ReachesNumber host root schema map n here)
    (hmin : map.get "minimum" = some (.number b)) :
    Reports "minimum" (node host root (room + 1) schema (.number n) here) ↔
      n.asF64.value < b.asF64.value := by
  have hbound : (map.get "minimum").bind Value.asF64 = some b.asF64 := by
    rw [hmin]
    rfl
  rw [reports_node h (Or.inl rfl), numberRules, reports_append, hbound, or_iff_left]
  · by_cases hlt : n.asF64.value < b.asF64.value <;> simp [hlt, Reports, Violation.new]
  · cases (map.get "maximum").bind Value.asF64 with
    | none => simp
    | some max => by_cases hgt : n.asF64.value > max.value <;> simp [Reports, Violation.new]

theorem reports_maximum (h : ReachesNumber host root schema map n here)
    (hmax : map.get "maximum" = some (.number b)) :
    Reports "maximum" (node host root (room + 1) schema (.number n) here) ↔
      b.asF64.value < n.asF64.value := by
  have hbound : (map.get "maximum").bind Value.asF64 = some b.asF64 := by
    rw [hmax]
    rfl
  rw [reports_node h (Or.inr rfl), numberRules, reports_append, hbound, or_iff_right]
  · by_cases hgt : n.asF64.value > b.asF64.value <;> simp [hgt, Reports, Violation.new]
  · cases (map.get "minimum").bind Value.asF64 with
    | none => simp
    | some min => by_cases hlt : n.asF64.value < min.value <;> simp [Reports, Violation.new]

end Node

/-! ## Exact bounds -/

/-- Wherever the bound `b` is given under the keyword, it is reported broken exactly
when `violates` says so of the numbers themselves. -/
def BoundExact (keyword : String) (violates : ℚ → ℚ → Prop) (n b : Number) : Prop :=
  ∀ (host : Host) (root schema : Value) (map : Map) (here : String) (room : Nat),
    ReachesNumber host root schema map n here → map.get keyword = some (.number b) →
      (Reports keyword (node host root (room + 1) schema (.number n) here) ↔
        violates n.exact b.exact)

def MinimumExact (n b : Number) : Prop := BoundExact "minimum" (· < ·) n b

def MaximumExact (n b : Number) : Prop := BoundExact "maximum" (· > ·) n b

/-- The schema of a bound alone. -/
theorem reachesNumber_alone (host : Host) (keyword : String) (n b : Number) (here : String)
    (hkeyword : keyword = "minimum" ∨ keyword = "maximum") :
    ReachesNumber host .null (.object [(keyword, .number b)]) [(keyword, .number b)] n here := by
  rcases hkeyword with rfl | rfl
  · exact ⟨⟨_, rfl⟩, rfl, rfl⟩
  · exact ⟨⟨_, rfl⟩, rfl, rfl⟩

theorem minimumExact_iff {n b : Number} :
    MinimumExact n b ↔ (n.asF64.value < b.asF64.value ↔ n.exact < b.exact) := by
  constructor
  · intro h
    have hreaches := reachesNumber_alone .ascii "minimum" n b "" (Or.inl rfl)
    exact (reports_minimum hreaches rfl).symm.trans (h .ascii .null _ _ "" 0 hreaches rfl)
  · intro h host root schema map here room hreaches hmin
    rw [reports_minimum hreaches hmin]
    exact h

theorem maximumExact_iff {n b : Number} :
    MaximumExact n b ↔ (b.asF64.value < n.asF64.value ↔ b.exact < n.exact) := by
  constructor
  · intro h
    have hreaches := reachesNumber_alone .ascii "maximum" n b "" (Or.inr rfl)
    exact (reports_maximum hreaches rfl).symm.trans (h .ascii .null _ _ "" 0 hreaches rfl)
  · intro h host root schema map here room hreaches hmax
    rw [reports_maximum hreaches hmax]
    exact h

/-- Both bounds are exact for two integers that are equal or have doubles of their
own. -/
theorem integer_bounds_exact_iff {n b : Number} (hn : n.isF64 = false) (hb : b.isF64 = false) :
    MinimumExact n b ∧ MaximumExact n b ↔ (n.asF64 = b.asF64 → n = b) := by
  rw [minimumExact_iff, maximumExact_iff, Number.asF64_lt_iff hn hb, Number.asF64_lt_iff hb hn,
    Number.asF64_inj_value, ← Number.exact_inj hn hb]
  constructor
  · intro hexact hsame
    by_contra hne
    rcases lt_or_gt_of_ne hne with hlt | hgt
    · exact (hexact.1.mpr hlt).2 hsame
    · exact (hexact.2.mpr hgt).2 hsame.symm
  · intro h
    constructor
    · exact ⟨fun hand => hand.1, fun hlt => ⟨hlt, fun hsame => hlt.ne (h hsame)⟩⟩
    · exact ⟨fun hand => hand.1, fun hgt => ⟨hgt, fun hsame => hgt.ne' (h hsame.symm)⟩⟩

/-- One of the doubles that two integers share is not below `2 ^ 53`. -/
theorem Number.eq_of_asF64_eq {n b : Number} (hn : n.isF64 = false) (hb : b.isF64 = false)
    (hsmall : |n.exact| < 2 ^ 53) (h : n.asF64 = b.asF64) : n = b := by
  rw [Number.asF64_inj_value] at h
  cases n with
  | float x => cases hn
  | posInt n =>
    cases b with
    | float x => cases hb
    | posInt b =>
      have hlt : n.toNat < 2 ^ 53 := by
        exact_mod_cast (show (n.toNat : ℚ) < 2 ^ 53 from (abs_lt.mp hsmall).2)
      have hround : roundNat n.toNat = roundNat b.toNat := by
        exact_mod_cast (show (roundNat n.toNat : ℚ) = roundNat b.toNat from h)
      rw [UInt64.toNat_inj.mp (eq_of_roundNat_eq hlt hround)]
    | negInt b hneg =>
      have hround : (roundNat n.toNat : ℚ) = -(roundNat b.natAbs : ℚ) := h
      have hnonneg : (0 : ℚ) ≤ roundNat n.toNat := Nat.cast_nonneg _
      have hpos : (0 : ℚ) < roundNat b.natAbs := by
        exact_mod_cast Nat.pos_of_ne_zero (roundNat_ne_zero (by omega))
      linarith
  | negInt n hneg =>
    cases b with
    | float x => cases hb
    | posInt b =>
      have hround : -(roundNat n.natAbs : ℚ) = roundNat b.toNat := h
      have hnonneg : (0 : ℚ) ≤ roundNat b.toNat := Nat.cast_nonneg _
      have hpos : (0 : ℚ) < roundNat n.natAbs := by
        exact_mod_cast Nat.pos_of_ne_zero (roundNat_ne_zero (by omega))
      linarith
    | negInt b hbneg =>
      have hlow : -2 ^ 53 < n := by
        exact_mod_cast (show -2 ^ 53 < (n : ℚ) from (abs_lt.mp hsmall).1)
      have hround : roundNat n.natAbs = roundNat b.natAbs := by
        have hneg : -(roundNat n.natAbs : ℚ) = -(roundNat b.natAbs : ℚ) := h
        exact_mod_cast neg_inj.mp hneg
      have heq : n.natAbs = b.natAbs := eq_of_roundNat_eq (by omega) hround
      have : n = b := by omega
      simp only [this]

/-- The first integer that is rounded is taken for its neighbour. -/
theorem integer_minimum_missed :
    ¬ (MinimumExact (.posInt 9007199254740992) (.posInt 9007199254740993) ∧
      MaximumExact (.posInt 9007199254740992) (.posInt 9007199254740993)) := by
  rw [minimumExact_iff]
  have hlow : roundNat 9007199254740992 = 9007199254740992 := by decide +kernel
  have hhigh : roundNat 9007199254740993 = 9007199254740992 := by decide +kernel
  have hless :
      Number.exact (.posInt 9007199254740992) < Number.exact (.posInt 9007199254740993) := by
    show ((9007199254740992 : ℕ) : ℚ) < (9007199254740993 : ℕ)
    norm_num
  have hsame : ¬ (Number.asF64 (.posInt 9007199254740992)).value <
      (Number.asF64 (.posInt 9007199254740993)).value := by
    show ¬ ((roundNat 9007199254740992 : ℕ) : ℚ) < (roundNat 9007199254740993 : ℕ)
    rw [hlow, hhigh]
    exact lt_irrefl _
  intro h
  exact hsame (h.1.mpr hless)

/-- A sequence number and a bound of common size. -/
theorem integer_bounds_exact_common :
    MinimumExact (.posInt 99) (.posInt 100) ∧ MaximumExact (.posInt 99) (.posInt 100) :=
  (integer_bounds_exact_iff rfl rfl).mpr
    (Number.eq_of_asF64_eq rfl rfl (by decide +kernel))

end Validation
end IndieWorker
