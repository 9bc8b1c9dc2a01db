import IndieWorker.Validation.PatternParse
import IndieWorker.Validation.Verdict

/-!
# The meaning of a document

What a schema document says, keyword by keyword, and where the validator decides
it.  The meaning is given by the equations a satisfaction relation has to fulfil
at the pairs of a subschema and a value that the evaluation reaches.  A count that
is spelled as a double is an integer and still nothing to the validator, which
passes over it; where the values met keep such counts anyway, the equations have
a solution and every solution agrees with the validator on the document.
-/

namespace IndieWorker
namespace Validation

/-! ## The documented subset -/

def TYPES : List String :=
  ["object", "array", "string", "integer", "number", "boolean", "null"]

/-- `v` is a string of which `p` holds. -/
def isStringOf (p : String → Bool) : Value → Bool
  | .string s => p s
  | _ => false

/-- `v` is an array of which `p` holds throughout. -/
def isArrayOf (p : Value → Bool) : Value → Bool
  | .array items => items.all p
  | _ => false

def isType (v : Value) : Bool :=
  isStringOf TYPES.contains v || isArrayOf (isStringOf TYPES.contains) v

/-- A non-negative integer, however it is spelled. -/
def isCount : Value → Bool
  | .number n => decide (n.exact.den = 1) && decide (0 ≤ n.exact)
  | _ => false

def isNumber (v : Value) : Bool := v.asF64.isSome

def isObject (v : Value) : Bool := v.asObject.isSome

/-- Every keyword is a supported one and its value has the form it should have. -/
structure WellFormed (map : Map) : Prop where
  keys : KnownKeys map
  type : ∀ v ∈ map.get "type", isType v = true
  enum : ∀ v ∈ map.get "enum", isArrayOf (fun _ => true) v = true
  required : ∀ v ∈ map.get "required", isArrayOf (isStringOf fun _ => true) v = true
  properties : ∀ v ∈ map.get "properties", isObject v = true
  oneOf : ∀ v ∈ map.get "oneOf", isArrayOf (fun _ => true) v = true
  counts : ∀ key ∈ ["minLength", "maxLength", "minItems", "maxItems"], ∀ v ∈ map.get key,
    isCount v = true
  limits : ∀ key ∈ ["minimum", "maximum"], ∀ v ∈ map.get key, isNumber v = true
  format : ∀ v ∈ map.get "format", isStringOf FORMAT_NAMES.contains v = true

instance (map : Map) : Decidable (WellFormed map) :=
  decidable_of_iff
    (KnownKeys map ∧ (∀ v ∈ map.get "type", isType v = true) ∧
      (∀ v ∈ map.get "enum", isArrayOf (fun _ => true) v = true) ∧
      (∀ v ∈ map.get "required", isArrayOf (isStringOf fun _ => true) v = true) ∧
      (∀ v ∈ map.get "properties", isObject v = true) ∧
      (∀ v ∈ map.get "oneOf", isArrayOf (fun _ => true) v = true) ∧
      (∀ key ∈ ["minLength", "maxLength", "minItems", "maxItems"], ∀ v ∈ map.get key,
        isCount v = true) ∧
      (∀ key ∈ ["minimum", "maximum"], ∀ v ∈ map.get key, isNumber v = true) ∧
      ∀ v ∈ map.get "format", isStringOf FORMAT_NAMES.contains v = true)
    ⟨fun ⟨keys, type, enum, required, properties, oneOf, counts, limits, format⟩ =>
        ⟨keys, type, enum, required, properties, oneOf, counts, limits, format⟩,
      fun h => ⟨h.keys, h.type, h.enum, h.required, h.properties, h.oneOf, h.counts, h.limits,
        h.format⟩⟩

/-- Every pattern is written in the pattern subset. -/
def PatternDocumented (map : Map) : Prop :=
  ∀ v ∈ map.get "pattern", ∃ (p : Pattern) (source : String),
    v = .string source ∧ p.Documented source

/-- A reference stands alone, but for annotations, and points at an object
definition that is not itself a reference. -/
def RefDocumented (root : Value) (map : Map) : Prop :=
  ∀ v ∈ map.get "$ref", ∃ name own,
    v = .string ("#/$defs/" ++ name) ∧ definition root name = some (.object own) ∧
      Map.get own "$ref" = none ∧ ∀ key ∈ map.keys, key = "$ref" ∨ key ∉ KEYWORDS

/-- The subschemas written in an object. -/
def subschemas (map : Map) : List Value :=
  (((map.get "properties").bind Value.asObject).getD []).map Prod.snd ++
    (map.get "items").toList ++ (map.get "additionalProperties").toList ++
    match map.get "oneOf" with
    | some (.array branches) => branches
    | _ => []

inductive Documented (root : Value) : Value → Prop
  | bool (b : Bool) : Documented root (.bool b)
  | object {map : Map} : WellFormed map → PatternDocumented map → RefDocumented root map →
      (∀ s ∈ subschemas map, Documented root s) → Documented root (.object map)

/-- The document and all of its definitions lie inside the documented subset. -/
structure InSubset (root : Value) : Prop where
  document : Documented root root
  definitions : ∀ name s, definition root name = some s → Documented root s

/-! ## The meaning of the keywords -/

inductive HasType : String → Value → Prop
  | null : HasType "null" .null
  | boolean (b : Bool) : HasType "boolean" (.bool b)
  | integer {n : Number} : n.exact.den = 1 → HasType "integer" (.number n)
  | number (n : Number) : HasType "number" (.number n)
  | string (s : String) : HasType "string" (.string s)
  | array (items : List Value) : HasType "array" (.array items)
  | object (members : Map) : HasType "object" (.object members)

/-- The instance satisfies the keywords of an object, where `Sat` is satisfaction
of the subschemas. -/
structure Satisfies (u : Unicode) (Sat : Value → Value → Prop) (map : Map) (inst : Value) :
    Prop where
  type : ∀ t, map.get "type" = some (.string t) → HasType t inst
  types : ∀ ts, map.get "type" = some (.array ts) → ∃ t, .string t ∈ ts ∧ HasType t inst
  const : ∀ c, map.get "const" = some c → inst = c
  enum : ∀ options, map.get "enum" = some (.array options) → inst ∈ options
  minLength : ∀ n text, map.get "minLength" = some (.number n) → inst = .string text →
    n.exact ≤ text.length
  maxLength : ∀ n text, map.get "maxLength" = some (.number n) → inst = .string text →
    text.length ≤ n.exact
  pattern : ∀ source text, map.get "pattern" = some (.string source) → inst = .string text →
    ∀ p : Pattern, p.Documented source → p.Matches (Item.matches u) text.toList
  format : ∀ f text, map.get "format" = some (.string f) → inst = .string text → FormatOk f text
  minimum : ∀ b n, map.get "minimum" = some (.number b) → inst = .number n → b.exact ≤ n.exact
  maximum : ∀ b n, map.get "maximum" = some (.number b) → inst = .number n → n.exact ≤ b.exact
  minItems : ∀ n items, map.get "minItems" = some (.number n) → inst = .array items →
    n.exact ≤ items.length
  maxItems : ∀ n items, map.get "maxItems" = some (.number n) → inst = .array items →
    items.length ≤ n.exact
  items : ∀ s items, map.get "items" = some s → inst = .array items → ∀ item ∈ items, Sat s item
  required : ∀ names object, map.get "required" = some (.array names) → inst = .object object →
    ∀ name, .string name ∈ names → name ∈ Map.keys object
  properties : ∀ own object, map.get "properties" = some (.object own) → inst = .object object →
    ∀ member ∈ object, ∀ s, Map.get own member.1 = some s → Sat s member.2
  additionalProperties : ∀ s object, map.get "additionalProperties" = some s →
    inst = .object object → ∀ member ∈ object, listed map member.1 = none → Sat s member.2
  oneOf : ∀ branches, map.get "oneOf" = some (.array branches) →
    ExactlyOne (fun branch => Sat branch inst) branches

/-- The pairs of a subschema and a value that evaluating the document reaches. -/
inductive Reached (root inst : Value) : Value → Value → Prop
  | document : Reached root inst root inst
  | application {s v s' v' : Value} : Reached root inst s v → (s', v') ∈ applied root s v →
      Reached root inst s' v'
  | reference {map own : Map} {v : Value} : Reached root inst (.object map) v →
      target root (.object map) = some (.object own) → Reached root inst (.object own) v

/-- `Sat` is what the document means: a boolean holds everywhere or nowhere, a
reference holds where its definition does, and any other object holds where its
keywords are satisfied. -/
structure IsMeaning (u : Unicode) (root inst : Value) (Sat : Value → Value → Prop) : Prop where
  bool : ∀ b v, Sat (.bool b) v ↔ b = true
  reference : ∀ (map : Map) (v : Value) (name : String), Reached root inst (.object map) v →
    map.get "$ref" = some (.string ("#/$defs/" ++ name)) →
    (Sat (.object map) v ↔ ∃ s, definition root name = some s ∧ Sat s v)
  keywords : ∀ (map : Map) (v : Value), Reached root inst (.object map) v →
    map.get "$ref" = none → (Sat (.object map) v ↔ Satisfies u Sat map v)

/-- Where a number meets a bound, both are doubles. -/
def ExactBounds (root inst : Value) : Prop :=
  ∀ (map : Map) (n b : Number), Reached root inst (.object map) (.number n) →
    ∀ key ∈ ["minimum", "maximum"], map.get key = some (.number b) →
      Representable b.exact ∧ Representable n.exact

/-- The length keeps the counts that are spelled as no unsigned integer. -/
def KeepsUnread (map : Map) (lo hi : String) (length : Nat) : Prop :=
  (∀ n : Number, map.get lo = some (.number n) → n.asU64 = none → n.exact ≤ length) ∧
    ∀ n : Number, map.get hi = some (.number n) → n.asU64 = none → length ≤ n.exact

/-- A string or an array keeps the counts of an object that it meets and the validator
passes over. -/
def CountsKept (map : Map) : Value → Prop
  | .string text => KeepsUnread map "minLength" "maxLength" text.length
  | .array items => KeepsUnread map "minItems" "maxItems" items.length
  | _ => True

/-- Where a value of the right type meets an object, it keeps the counts that are
passed over. -/
def UnreadCountsKept (root inst : Value) : Prop :=
  ∀ (map : Map) (v : Value), Reached root inst (.object map) v →
    typeHolds map (kindOf v) = true → CountsKept map v

/-- Evaluation stays among pairs that no step leaves. -/
theorem Reached.mem_of_closed {root inst s v : Value} (h : Reached root inst s v)
    (pairs : List (Value × Value)) (hroot : (root, inst) ∈ pairs)
    (happlied : ∀ q ∈ pairs, ∀ p ∈ applied root q.1 q.2, p ∈ pairs)
    (htarget : ∀ q ∈ pairs, ∀ t ∈ target root q.1, (t, q.2) ∈ pairs) : (s, v) ∈ pairs := by
  induction h with
  | document => exact hroot
  | application _ hp ih => exact happlied _ ih _ hp
  | reference _ ht ih => exact htarget _ ih _ ht

/-! ## Reading the keywords -/

theorem kindOf_number (n : Number) :
    kindOf (.number n) = if n.exact.den = 1 then "integer" else "number" := by
  cases n with
  | posInt n => simp [kindOf, Number.isF64, Number.exact]
  | negInt n h => simp [kindOf, Number.isF64, Number.exact]
  | float x =>
    by_cases h : x.value.den = 1
    · simp [kindOf, Number.isF64, Number.asF64, Number.exact, h]
    · simp [kindOf, Number.isF64, Number.asF64, Number.exact, h]

theorem typeMatches_iff {t : String} {v : Value} :
    typeMatches t (kindOf v) = true ↔ HasType t v := by
  simp only [typeMatches, Bool.or_eq_true, Bool.and_eq_true, beq_iff_eq]
  constructor
  · intro h
    cases v with
    | number n =>
      rw [kindOf_number] at h
      split at h
      · next hint =>
        rcases h with rfl | ⟨rfl, -⟩
        · exact .integer hint
        · exact .number n
      · rcases h with rfl | ⟨-, h⟩
        · exact .number n
        · exact absurd h (by decide)
    | null =>
      obtain rfl : t = "null" := h.resolve_right fun h => absurd h.2 (by simp [kindOf])
      exact .null
    | bool b =>
      obtain rfl : t = "boolean" := h.resolve_right fun h => absurd h.2 (by simp [kindOf])
      exact .boolean b
    | string s =>
      obtain rfl : t = "string" := h.resolve_right fun h => absurd h.2 (by simp [kindOf])
      exact .string s
    | array items =>
      obtain rfl : t = "array" := h.resolve_right fun h => absurd h.2 (by simp [kindOf])
      exact .array items
    | object members =>
      obtain rfl : t = "object" := h.resolve_right fun h => absurd h.2 (by simp [kindOf])
      exact .object members
  · intro h
    cases h with
    | integer hint => exact Or.inl (by rw [kindOf_number, if_pos hint])
    | number n =>
      rw [kindOf_number]
      split
      · exact Or.inr ⟨rfl, rfl⟩
      · exact Or.inl rfl
    | _ => exact Or.inl rfl

section Keywords

variable {u : Unicode} {R : Value → Value → Prop} {map : Map} {inst : Value}

theorem typeHolds_iff (hwf : WellFormed map) :
    typeHolds map (kindOf inst) = true ↔
      (∀ t, map.get "type" = some (.string t) → HasType t inst) ∧
        ∀ ts, map.get "type" = some (.array ts) → ∃ t, .string t ∈ ts ∧ HasType t inst := by
  have htype := hwf.type
  unfold typeHolds
  generalize map.get "type" = given at htype ⊢
  rcases given with _ | v
  · simp
  · cases v with
    | string t => simp [typeMatches_iff]
    | array ts =>
      have hany : (ts.filterMap Value.asStr).any (typeMatches · (kindOf inst)) = true ↔
          ∃ t, .string t ∈ ts ∧ HasType t inst := by
        simp only [List.any_eq_true, List.mem_filterMap, Value.asStr_eq_some, typeMatches_iff]
        constructor
        · intro h
          obtain ⟨t, ⟨v, hv, rfl⟩, ht⟩ := h
          exact ⟨t, hv, ht⟩
        · intro h
          obtain ⟨t, ht, htype⟩ := h
          exact ⟨t, ⟨_, ht, rfl⟩, htype⟩
      rw [hany]
      simp
    | _ => exact absurd (htype _ rfl) (by simp [isType, isStringOf, isArrayOf])

theorem Number.exact_of_asU64 {n : Number} {k : UInt64} (h : n.asU64 = some k) :
    n = .posInt k ∧ n.exact = k.toNat := by
  cases n with
  | posInt n =>
    cases h
    exact ⟨rfl, rfl⟩
  | negInt | float => cases h

theorem lengthOk_iff {lo hi : String} {length : Nat} (hkept : KeepsUnread map lo hi length) :
    LengthOk map lo hi length ↔
      (∀ n : Number, map.get lo = some (.number n) → n.exact ≤ length) ∧
        ∀ n : Number, map.get hi = some (.number n) → length ≤ n.exact := by
  unfold LengthOk
  simp only [Option.bind_eq_some_iff, Value.asU64_eq_some]
  constructor
  · intro h
    refine ⟨fun n hn => ?_, fun n hn => ?_⟩
    · cases hread : n.asU64 with
      | none => exact hkept.1 n hn hread
      | some k =>
        obtain ⟨rfl, hexact⟩ := Number.exact_of_asU64 hread
        rw [hexact]
        exact_mod_cast h.1 k ⟨_, hn, rfl⟩
    · cases hread : n.asU64 with
      | none => exact hkept.2 n hn hread
      | some k =>
        obtain ⟨rfl, hexact⟩ := Number.exact_of_asU64 hread
        rw [hexact]
        exact_mod_cast h.2 k ⟨_, hn, rfl⟩
  · intro h
    refine ⟨fun k hex => ?_, fun k hex => ?_⟩
    · obtain ⟨v, hv, rfl⟩ := hex
      have hbound : ((k.toNat : ℕ) : ℚ) ≤ length := h.1 _ hv
      exact_mod_cast hbound
    · obtain ⟨v, hv, rfl⟩ := hex
      have hbound : (length : ℚ) ≤ ((k.toNat : ℕ) : ℚ) := h.2 _ hv
      exact_mod_cast hbound

theorem patternOk_iff {source text : String} {p : Pattern} (h : p.Documented source) :
    PatternOk u source text ↔ p.Matches (Item.matches u) text.toList := by
  rw [PatternOk, Pattern.Written.parse_eq h]
  simp [Pattern.isMatch_iff]

theorem memberOk_iff (hfalse : ∀ v, ¬ R (.bool false) v) {name : String}
    {value : Value} :
    MemberOk R map name value ↔
      (∀ own, map.get "properties" = some (.object own) → ∀ s, Map.get own name = some s →
          R s value) ∧
        ∀ s, map.get "additionalProperties" = some s → listed map name = none → R s value := by
  have hlisted : (∀ own, map.get "properties" = some (.object own) → ∀ s,
      Map.get own name = some s → R s value) ↔ ∀ s, listed map name = some s → R s value := by
    simp only [listed, Option.bind_eq_some_iff, Value.asObject_eq_some]
    constructor
    · intro h s hex
      obtain ⟨own, ⟨v, hv, rfl⟩, hs⟩ := hex
      exact h own hv s hs
    · exact fun h own hown s hs => h s ⟨own, ⟨_, hown, rfl⟩, hs⟩
  rw [hlisted]
  unfold MemberOk
  generalize listed map name = own
  generalize map.get "additionalProperties" = other
  rcases own with _ | s
  · rcases other with _ | v
    · simp
    · cases v with
      | bool b => cases b <;> simp [hfalse]
      | _ => simp
  · simp

theorem stringOk_iff (hpattern : PatternDocumented map) {text : String}
    (hkept : KeepsUnread map "minLength" "maxLength" text.length) :
    StringOk u map text ↔
      ((∀ n : Number, map.get "minLength" = some (.number n) → n.exact ≤ text.length) ∧
          ∀ n : Number, map.get "maxLength" = some (.number n) → text.length ≤ n.exact) ∧
        (∀ source, map.get "pattern" = some (.string source) →
          ∀ p : Pattern, p.Documented source → p.Matches (Item.matches u) text.toList) ∧
        ∀ f, map.get "format" = some (.string f) → FormatOk f text := by
  have hsources : (∀ source, (map.get "pattern").bind Value.asStr = some source →
      PatternOk u source text) ↔ ∀ source, map.get "pattern" = some (.string source) →
        ∀ p : Pattern, p.Documented source → p.Matches (Item.matches u) text.toList := by
    simp only [Option.bind_eq_some_iff, Value.asStr_eq_some, exists_eq_right]
    refine forall₂_congr fun source hsource => ?_
    obtain ⟨p, source', heq, hp⟩ := hpattern _ hsource
    cases heq
    exact ⟨fun h q hq => (patternOk_iff hq).mp h, fun h => (patternOk_iff hp).mpr (h p hp)⟩
  have hformats : (∀ f, (map.get "format").bind Value.asStr = some f → FormatOk f text) ↔
      ∀ f, map.get "format" = some (.string f) → FormatOk f text := by
    simp only [Option.bind_eq_some_iff, Value.asStr_eq_some, exists_eq_right]
  rw [StringOk, String.length_toList, lengthOk_iff hkept, hsources, hformats]

theorem numberOk_iff {n : Number} (hexact : ∀ b, ∀ key ∈ ["minimum", "maximum"],
      map.get key = some (.number b) → Representable b.exact ∧ Representable n.exact) :
    NumberOk map n.asF64 ↔
      (∀ b, map.get "minimum" = some (.number b) → b.exact ≤ n.exact) ∧
        ∀ b, map.get "maximum" = some (.number b) → n.exact ≤ b.exact := by
  have hvalues : ∀ key ∈ ["minimum", "maximum"], ∀ b, map.get key = some (.number b) →
      b.asF64.value = b.exact ∧ n.asF64.value = n.exact := by
    intro key hkey b hb
    obtain ⟨hrb, hrn⟩ := hexact b key hkey hb
    exact ⟨Number.asF64_value_of_representable hrb, Number.asF64_value_of_representable hrn⟩
  unfold NumberOk
  simp only [Option.bind_eq_some_iff, Value.asF64_eq_some, forall_exists_index, and_imp]
  constructor
  · intro h
    refine ⟨fun b hb => ?_, fun b hb => ?_⟩
    · obtain ⟨hbound, hn⟩ := hvalues "minimum" (by decide) b hb
      rw [← hbound, ← hn]
      exact h.1 _ _ hb b rfl rfl
    · obtain ⟨hbound, hn⟩ := hvalues "maximum" (by decide) b hb
      rw [← hbound, ← hn]
      exact h.2 _ _ hb b rfl rfl
  · intro h
    refine ⟨fun x v hv b hb hx => ?_, fun x v hv b hb hx => ?_⟩
    · subst hb hx
      obtain ⟨hbound, hn⟩ := hvalues "minimum" (by decide) b hv
      rw [hbound, hn]
      exact h.1 b hv
    · subst hb hx
      obtain ⟨hbound, hn⟩ := hvalues "maximum" (by decide) b hv
      rw [hbound, hn]
      exact h.2 b hv

theorem arrayOk_iff {items : List Value}
    (hkept : KeepsUnread map "minItems" "maxItems" items.length) :
    ArrayOk R map items ↔
      ((∀ n : Number, map.get "minItems" = some (.number n) → n.exact ≤ items.length) ∧
          ∀ n : Number, map.get "maxItems" = some (.number n) → items.length ≤ n.exact) ∧
        ∀ s, map.get "items" = some s → ∀ item ∈ items, R s item := by
  rw [ArrayOk, lengthOk_iff hkept]

theorem objectOk_iff (hfalse : ∀ v, ¬ R (.bool false) v) {object : Map} :
    ObjectOk R map object ↔
      (∀ names, map.get "required" = some (.array names) →
          ∀ name, .string name ∈ names → name ∈ object.keys) ∧
        (∀ own, map.get "properties" = some (.object own) → ∀ member ∈ object, ∀ s,
          Map.get own member.1 = some s → R s member.2) ∧
        ∀ s, map.get "additionalProperties" = some s → ∀ member ∈ object,
          listed map member.1 = none → R s member.2 := by
  unfold ObjectOk RequiredOk
  simp only [Map.isSome_get_iff, memberOk_iff hfalse]
  refine and_congr_right fun _ => ⟨fun h => ?_, fun h member hmember => ?_⟩
  · exact ⟨fun own hown member hmember => (h member hmember).1 own hown,
      fun s hs member hmember => (h member hmember).2 s hs⟩
  · exact ⟨fun own hown => h.1 own hown member hmember, fun s hs => h.2 s hs member hmember⟩

/-- The rules of the validator read well-formed keywords as they are meant, but for the
counts it passes over. -/
theorem satisfies_iff (hwf : WellFormed map) (hpattern : PatternDocumented map)
    (hfalse : ∀ v, ¬ R (.bool false) v)
    (hcounts : typeHolds map (kindOf inst) = true → CountsKept map inst)
    (hexact : ∀ n b, inst = .number n → ∀ key ∈ ["minimum", "maximum"],
      map.get key = some (.number b) → Representable b.exact ∧ Representable n.exact) :
    ObjectStep R u map inst ↔ Satisfies u R map inst := by
  constructor
  · intro h
    have htype := (typeHolds_iff hwf).mp h.type
    have hkept := hcounts h.type
    have hstring : ∀ text, inst = .string text →
        KeepsUnread map "minLength" "maxLength" text.length ∧ StringOk u map text := by
      intro text heq
      subst heq
      exact ⟨hkept, h.kind⟩
    have hnumber : ∀ n, inst = .number n → NumberOk map n.asF64 := by
      intro n heq
      subst heq
      exact h.kind
    have harray : ∀ items, inst = .array items →
        KeepsUnread map "minItems" "maxItems" items.length ∧ ArrayOk R map items := by
      intro items heq
      subst heq
      exact ⟨hkept, h.kind⟩
    have hobject : ∀ object, inst = .object object → ObjectOk R map object := by
      intro object heq
      subst heq
      exact h.kind
    have hread := fun text heq =>
      (stringOk_iff hpattern (hstring text heq).1).mp (hstring text heq).2
    have helements := fun items heq => (arrayOk_iff (harray items heq).1).mp (harray items heq).2
    exact
      { type := htype.1
        types := htype.2
        const := fun c hc => (h.const c hc).symm
        enum := h.enum
        minLength := fun n text hn heq => (hread text heq).1.1 n hn
        maxLength := fun n text hn heq => (hread text heq).1.2 n hn
        pattern := fun source text hs heq => (hread text heq).2.1 source hs
        format := fun f text hf heq => (hread text heq).2.2 f hf
        minimum := fun b n hb heq =>
          ((numberOk_iff fun b => hexact n b heq).mp (hnumber n heq)).1 b hb
        maximum := fun b n hb heq =>
          ((numberOk_iff fun b => hexact n b heq).mp (hnumber n heq)).2 b hb
        minItems := fun n items hn heq => (helements items heq).1.1 n hn
        maxItems := fun n items hn heq => (helements items heq).1.2 n hn
        items := fun s items hs heq => (helements items heq).2 s hs
        required := fun names object hnames heq =>
          ((objectOk_iff hfalse).mp (hobject object heq)).1 names hnames
        properties := fun own object hown heq =>
          ((objectOk_iff hfalse).mp (hobject object heq)).2.1 own hown
        additionalProperties := fun s object hs heq =>
          ((objectOk_iff hfalse).mp (hobject object heq)).2.2 s hs
        oneOf := h.oneOf }
  · intro h
    have htype : typeHolds map (kindOf inst) = true := (typeHolds_iff hwf).mpr ⟨h.type, h.types⟩
    have hkept := hcounts htype
    refine
      { keys := hwf.keys, type := htype, const := fun c hc => (h.const c hc).symm,
        enum := h.enum, kind := ?_, oneOf := h.oneOf }
    cases inst with
    | string text =>
      exact (stringOk_iff hpattern hkept).mpr ⟨⟨fun n hn => h.minLength n text hn rfl,
        fun n hn => h.maxLength n text hn rfl⟩, fun source hs => h.pattern source text hs rfl,
        fun f hf => h.format f text hf rfl⟩
    | number n =>
      exact (numberOk_iff fun b => hexact n b rfl).mpr ⟨fun b hb => h.minimum b n hb rfl,
        fun b hb => h.maximum b n hb rfl⟩
    | array items =>
      exact (arrayOk_iff hkept).mpr ⟨⟨fun n hn => h.minItems n items hn rfl,
        fun n hn => h.maxItems n items hn rfl⟩, fun s hs => h.items s items hs rfl⟩
    | object object =>
      exact (objectOk_iff hfalse).mpr ⟨fun names hnames => h.required names object hnames rfl,
        fun own hown => h.properties own object hown rfl,
        fun s hs => h.additionalProperties s object hs rfl⟩
    | _ => trivial

end Keywords

/-! ## The validator decides the meaning -/

/-- What an object applies is one of its subschemas. -/
theorem applications_subset {map : Map} {inst : Value} {p : Value × Value}
    (hp : p ∈ applications map inst) : p.1 ∈ subschemas map := by
  have hmember : ∀ name s, memberSchema map name = some s →
      s ∈ (((map.get "properties").bind Value.asObject).getD []).map Prod.snd ∨
        s ∈ (map.get "additionalProperties").toList := by
    intro name s hs
    unfold memberSchema listed at hs
    generalize (map.get "properties").bind Value.asObject = own at hs ⊢
    generalize map.get "additionalProperties" = other at hs ⊢
    split at hs
    · next s' hs' =>
      cases hs
      obtain ⟨members, rfl, hget⟩ := Option.bind_eq_some_iff.mp hs'
      exact Or.inl (List.mem_map_of_mem (Map.mem_of_get hget))
    · split at hs
      · cases hs
      · rw [hs]
        exact Or.inr (List.mem_singleton_self s)
  unfold subschemas
  rcases List.mem_append.mp hp with hp | hp
  · refine List.mem_append_left _ ?_
    unfold kindApplications at hp
    cases inst with
    | array items =>
      dsimp only at hp
      split at hp
      · next s hs =>
        obtain ⟨item, -, rfl⟩ := List.mem_map.mp hp
        refine List.mem_append_left _ (List.mem_append_right _ ?_)
        rw [hs]
        exact List.mem_singleton_self s
      · cases hp
    | object object =>
      obtain ⟨member, -, hpair⟩ := List.mem_filterMap.mp hp
      obtain ⟨s, hs, rfl⟩ := Option.map_eq_some_iff.mp hpair
      rcases hmember _ _ hs with h | h
      · exact List.mem_append_left _ (List.mem_append_left _ h)
      · exact List.mem_append_right _ h
    | _ => cases hp
  · refine List.mem_append_right _ ?_
    unfold oneOfApplications at hp
    generalize map.get "oneOf" = given at hp ⊢
    rcases given with _ | v
    · cases hp
    · cases v with
      | array branches =>
        obtain ⟨branch, hbranch, rfl⟩ := List.mem_map.mp hp
        exact hbranch
      | _ => cases hp

section Document

variable {root inst : Value}

/-- Behind its reference, if it has one, an object of the subset stands for an
object without one. -/
theorem Documented.target {map : Map} (hsub : InSubset root) (h : Documented root (.object map)) :
    ∃ own, Validation.target root (.object map) = some (.object own) ∧
      Map.get own "$ref" = none ∧ Documented root (.object own) := by
  cases h with
  | object hwf hpattern href hchildren =>
    rcases hget : map.get "$ref" with _ | v
    · exact ⟨map, target_of_no_ref hget, hget, .object hwf hpattern href hchildren⟩
    · obtain ⟨name, own, rfl, hdef, hown, -⟩ := href v hget
      exact ⟨own, (target_of_ref hget).trans hdef, hown, hsub.definitions name _ hdef⟩

theorem applied_eq_of_target {map own : Map} (v : Value)
    (h : Validation.target root (.object map) = some (.object own))
    (hown : Map.get own "$ref" = none) :
    applied root (.object map) v = applied root (.object own) v := by
  unfold applied
  dsimp only
  rw [h, target_of_no_ref hown]

/-- What evaluation reaches lies in the subset, and its chains are bounded. -/
theorem Reached.documented {s v : Value} (hsub : InSubset root)
    (hdepth : Within root MAX_DEPTH root inst) (h : Reached root inst s v) :
    Documented root s ∧ ∃ n ≤ MAX_DEPTH, Within root n s v := by
  induction h with
  | document => exact ⟨hsub.document, MAX_DEPTH, Nat.le_refl _, hdepth⟩
  | @application s v s' v' _ hp ih =>
    obtain ⟨hs, n, hn, hwithin⟩ := ih
    obtain ⟨m, rfl, hm⟩ := hwithin.child hp
    refine ⟨?_, m, Nat.le_of_succ_le hn, hm⟩
    cases s with
    | object map =>
      obtain ⟨own, htarget, hown, hdoc⟩ := hs.target hsub
      unfold applied at hp
      dsimp only at hp
      rw [htarget] at hp
      dsimp only at hp
      split at hp
      · cases hdoc with
        | object _ _ _ hchildren => exact hchildren _ (applications_subset hp)
      · cases hp
    | _ => cases hp
  | @reference map own v _ htarget ih =>
    obtain ⟨hs, n, hn, hwithin⟩ := ih
    obtain ⟨own', htarget', hown, hdoc⟩ := hs.target hsub
    rw [htarget] at htarget'
    cases htarget'
    exact ⟨hdoc, n, hn, hwithin.congr (applied_eq_of_target v htarget hown)⟩

variable {host : Host}

theorem accepts_bool_iff {room : Nat} {b : Bool} {v : Value} :
    accepts host root (room + 1) (.bool b) v ↔ b = true := by
  rw [accepts_succ_iff]
  exact Iff.rfl

/-- The node of an object of the subset, behind its reference. -/
theorem accepts_object_iff {room : Nat} {map own : Map} {v : Value}
    (htarget : Validation.target root (.object map) = some (.object own)) :
    accepts host root (room + 1) (.object map) v ↔
      ObjectStep (accepts host root room) host.toUnicode own v := by
  rw [accepts_succ_iff]
  unfold Step
  dsimp only
  rw [htarget]

/-- An object of the subset that evaluation reaches is decided by its keywords,
for any verdict on its children that agrees with the walk. -/
theorem accepts_object_iff_satisfies {R : Value → Value → Prop} {room : Nat} {map : Map}
    {v : Value} (hdoc : Documented root (.object map)) (hget : map.get "$ref" = none)
    (hcounts : UnreadCountsKept root inst) (hexact : ExactBounds root inst)
    (hreached : Reached root inst (.object map) v) (hfalse : ∀ v, ¬ R (.bool false) v)
    (hchild : ∀ p ∈ applied root (.object map) v, accepts host root room p.1 p.2 ↔ R p.1 p.2) :
    accepts host root (room + 1) (.object map) v ↔ Satisfies host.toUnicode R map v := by
  cases hdoc with
  | object hwf hpattern _ _ =>
    have hbounds : ∀ n b, v = .number n → ∀ key ∈ ["minimum", "maximum"],
        map.get key = some (.number b) → Representable b.exact ∧ Representable n.exact := by
      intro n b heq
      subst heq
      exact hexact map n b hreached
    have htarget : Validation.target root (.object map) = some (.object map) :=
      target_of_no_ref hget
    rw [← satisfies_iff hwf hpattern hfalse (hcounts map v hreached) hbounds, accepts_succ_iff,
      step_congr hchild]
    unfold Step
    dsimp only
    rw [htarget]

/-- Every meaning of the document agrees with the walk wherever evaluation
arrives with room for what is left of the chain. -/
theorem accepts_iff_of_meaning {Sat : Value → Value → Prop}
    (hsat : IsMeaning host.toUnicode root inst Sat) (hsub : InSubset root)
    (hcounts : UnreadCountsKept root inst) (hexact : ExactBounds root inst)
    (hdepth : Within root MAX_DEPTH root inst) {n room : Nat} {s v : Value}
    (hreached : Reached root inst s v) (hwithin : Within root n s v)
    (hroom : n < room) : accepts host root room s v ↔ Sat s v := by
  induction n using Nat.strongRecOn generalizing s v room with
  | _ n ih =>
    obtain ⟨r, rfl⟩ := Nat.exists_eq_add_of_lt hroom
    have hfalse : ∀ v, ¬ Sat (.bool false) v := fun v h => by
      have := (hsat.bool false v).mp h
      cases this
    obtain ⟨hdoc, -⟩ := hreached.documented hsub hdepth
    -- an object without a reference, reached with this room
    have hplain : ∀ own v, Reached root inst (.object own) v → Within root n (.object own) v →
        Map.get own "$ref" = none → Documented root (.object own) →
        (accepts host root (n + r + 1) (.object own) v ↔ Sat (.object own) v) := by
      intro own v hreached hwithin hown hdoc
      rw [hsat.keywords own v hreached hown]
      refine accepts_object_iff_satisfies hdoc hown hcounts hexact hreached hfalse fun p hp => ?_
      obtain ⟨m, rfl, hm⟩ := hwithin.child hp
      exact ih m (Nat.lt_succ_self m) (hreached.application hp) hm (by omega)
    cases hdoc with
    | bool b => rw [accepts_bool_iff, hsat.bool]
    | @object map hwf hpattern href hchildren =>
      have hdoc : Documented root (.object map) := .object hwf hpattern href hchildren
      rcases hget : map.get "$ref" with _ | w
      · exact hplain map v hreached hwithin hget hdoc
      · obtain ⟨name, own, rfl, hdef, hown, -⟩ := href w hget
        have htarget : Validation.target root (.object map) = some (.object own) :=
          (target_of_ref hget).trans hdef
        have hvia : accepts host root (n + r + 1) (.object map) v ↔
            accepts host root (n + r + 1) (.object own) v := by
          rw [accepts_object_iff htarget, accepts_object_iff (target_of_no_ref hown)]
        rw [hvia, hsat.reference map v name hreached hget, hdef]
        have hown := hplain own v (hreached.reference htarget)
          (hwithin.congr (applied_eq_of_target v htarget hown)) hown (hsub.definitions name _ hdef)
        simpa using hown

/-- The walk itself solves the equations. -/
theorem isMeaning_accepts (hsub : InSubset root) (hcounts : UnreadCountsKept root inst)
    (hexact : ExactBounds root inst) (hdepth : Within root MAX_DEPTH root inst) :
    IsMeaning host.toUnicode root inst (accepts host root (MAX_DEPTH + 1)) where
  bool := fun b v => accepts_bool_iff
  reference := by
    intro map v name hreached hget
    obtain ⟨hdoc, -⟩ := hreached.documented hsub hdepth
    obtain ⟨own, htarget, hown, -⟩ := hdoc.target hsub
    rw [accepts_object_iff htarget, ← target_of_ref hget, htarget]
    simp [accepts_object_iff (target_of_no_ref hown)]
  keywords := by
    intro map v hreached hget
    obtain ⟨hdoc, n, hn, hwithin⟩ := hreached.documented hsub hdepth
    have hfalse : ∀ v, ¬ accepts host root (MAX_DEPTH + 1) (.bool false) v := fun v h => by
      have := accepts_bool_iff.mp h
      cases this
    refine accepts_object_iff_satisfies hdoc hget hcounts hexact hreached hfalse fun p hp => ?_
    obtain ⟨m, rfl, hm⟩ := hwithin.child hp
    exact accepts_of_within hm (by omega) (by omega)

/-- Inside the documented subset, where numbers and bounds are doubles and no chain of
applications is longer than the limit, the validator accepts exactly what the document
means, if the counts that it passes over are kept. -/
theorem validate_iff_meaning (host : Host) (root inst : Value) (hsub : InSubset root)
    (hexact : ExactBounds root inst) (hdepth : Within root MAX_DEPTH root inst)
    (hcounts : UnreadCountsKept root inst) :
    (∃ Sat, IsMeaning host.toUnicode root inst Sat) ∧
      ∀ Sat, IsMeaning host.toUnicode root inst Sat →
        (validate host root inst = .ok () ↔ Sat root inst) := by
  refine ⟨⟨_, isMeaning_accepts hsub hcounts hexact hdepth⟩, fun Sat hsat => ?_⟩
  rw [validate_eq_ok_iff]
  exact accepts_iff_of_meaning hsat hsub hcounts hexact hdepth .document hdepth
    (Nat.lt_succ_self _)

end Document

/-- A counter: an object with one member, an integer from one on. -/
def counterDocument : Value :=
  .object
    [("$defs", .object
        [("Count", .object [("minimum", .number (.posInt 1)), ("type", .string "integer")])]),
      ("additionalProperties", .bool false),
      ("properties", .object [("n", .object [("$ref", .string "#/$defs/Count")])]),
      ("required", .array [.string "n"]), ("type", .string "object")]

theorem counterDocument_inSubset : InSubset counterDocument := by
  have hcount : Documented counterDocument
      (.object [("minimum", .number (.posInt 1)), ("type", .string "integer")]) := by
    refine .object (by decide) ?_ ?_ ?_
    · exact nofun
    · exact nofun
    · exact nofun
  have href : Documented counterDocument (.object [("$ref", .string "#/$defs/Count")]) := by
    refine .object (by decide) ?_ ?_ ?_
    · exact nofun
    · intro v hv
      cases hv
      exact ⟨"Count", _, by decide, rfl, by decide, by decide⟩
    · exact nofun
  constructor
  · refine .object (by decide) ?_ ?_ ?_
    · exact nofun
    · exact nofun
    · intro s hs
      have hmem : s ∈ [Value.object [("$ref", .string "#/$defs/Count")], .bool false] := hs
      rcases List.mem_cons.mp hmem with rfl | hmem
      · exact href
      · rw [List.mem_singleton.mp hmem]
        exact .bool false
  · intro name s hs
    change List.lookup name [("Count", _)] = some s at hs
    rw [List.lookup_cons] at hs
    split at hs
    · cases hs
      exact hcount
    · cases hs

theorem validate_iff_meaning_counter :
    ∃ Sat, IsMeaning Host.ascii.toUnicode counterDocument
        (.object [("n", .number (.posInt 2))]) Sat ∧
      Sat counterDocument (.object [("n", .number (.posInt 2))]) := by
  have hexact : ExactBounds counterDocument (.object [("n", .number (.posInt 2))]) := by
    intro map n b hreached key hkey hget
    have hpair := hreached.mem_of_closed
      [(counterDocument, .object [("n", .number (.posInt 2))]),
        (.object [("$ref", .string "#/$defs/Count")], .number (.posInt 2)),
        (.object [("minimum", .number (.posInt 1)), ("type", .string "integer")],
          .number (.posInt 2))] (by decide) (by decide) (by decide)
    simp only [List.mem_cons, Prod.mk.injEq, Value.number.injEq, Value.object.injEq,
      reduceCtorEq, and_false, false_or, List.not_mem_nil, or_false] at hpair hkey
    have hone : Representable (1 : ℚ) := by
      exact_mod_cast representable_natCast (n := 1) (by decide)
    have htwo : Representable (2 : ℚ) := by
      exact_mod_cast representable_natCast (n := 2) (by decide)
    rcases hpair with ⟨rfl, rfl⟩ | ⟨rfl, rfl⟩
    · rcases hkey with rfl | rfl <;> cases hget
    · rcases hkey with rfl | rfl <;> cases hget
      exact ⟨hone, htwo⟩
  have hcounts : UnreadCountsKept counterDocument (.object [("n", .number (.posInt 2))]) := by
    intro map v hreached _
    have hpair := hreached.mem_of_closed
      [(counterDocument, .object [("n", .number (.posInt 2))]),
        (.object [("$ref", .string "#/$defs/Count")], .number (.posInt 2)),
        (.object [("minimum", .number (.posInt 1)), ("type", .string "integer")],
          .number (.posInt 2))] (by decide) (by decide) (by decide)
    simp only [List.mem_cons, Prod.mk.injEq, List.not_mem_nil, or_false] at hpair
    rcases hpair with ⟨-, rfl⟩ | ⟨-, rfl⟩ | ⟨-, rfl⟩
    · trivial
    · trivial
    · trivial
  obtain ⟨⟨Sat, hsat⟩, hall⟩ := validate_iff_meaning Host.ascii counterDocument _
    counterDocument_inSubset hexact (by decide) hcounts
  exact ⟨Sat, hsat, (hall Sat hsat).mp (by decide)⟩

/-- At least two characters, the count spelled as a double. -/
def doubleCountDocument : Value :=
  .object [("minLength", .number (.float (.ofNat 2 (by decide))))]

/-- A count that is spelled as a double means what it says, and is passed over. -/
theorem double_count_passed_over :
    (InSubset doubleCountDocument ∧ ExactBounds doubleCountDocument (.string "a") ∧
        Within doubleCountDocument MAX_DEPTH doubleCountDocument (.string "a")) ∧
      validate Host.ascii doubleCountDocument (.string "a") = .ok () ∧
      (∃ Sat, IsMeaning Host.ascii.toUnicode doubleCountDocument (.string "a") Sat) ∧
      ∀ Sat, IsMeaning Host.ascii.toUnicode doubleCountDocument (.string "a") Sat →
        ¬ Sat doubleCountDocument (.string "a") := by
  have hdoc : Documented doubleCountDocument doubleCountDocument := by
    refine .object (by decide) ?_ ?_ ?_
    · exact nofun
    · exact nofun
    · exact nofun
  have honly : ∀ s v, Reached doubleCountDocument (.string "a") s v →
      s = doubleCountDocument ∧ v = .string "a" := by
    intro s v hreached
    have hpair := hreached.mem_of_closed [(doubleCountDocument, .string "a")] (by decide)
      (by decide) (by decide)
    simpa using hpair
  -- one character is fewer than two
  have hbroken : ∀ Sat, ¬ Satisfies Host.ascii.toUnicode Sat
      [("minLength", .number (.float (.ofNat 2 (by decide))))] (.string "a") := by
    intro Sat hsat
    exact absurd (hsat.minLength _ "a" rfl rfl) (by decide)
  refine ⟨⟨⟨hdoc, nofun⟩, ?_, by decide⟩, by decide, ⟨fun s _ => s = .bool true, ?_⟩, ?_⟩
  · intro map n b hreached
    cases (honly _ _ hreached).2
  · refine ⟨fun b v => by simp, fun map v name hreached hget => ?_, fun map v hreached _ => ?_⟩
    · cases (honly _ _ hreached).1
      cases hget
    · obtain ⟨hmap, rfl⟩ := honly _ _ hreached
      cases hmap
      exact iff_of_false nofun (hbroken _)
  · intro Sat hsat hholds
    exact hbroken Sat ((hsat.keywords _ _ .document rfl).mp hholds)

end Validation
end IndieWorker
