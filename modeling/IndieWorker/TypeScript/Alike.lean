import IndieWorker.TypeScript.Validate
import IndieWorker.Validation.Meaning

/-!
# What the two validators read alike

The positions that both walks meet, and what has to hold at one for its keywords
to be read alike.  The rules of the TypeScript walk then decide what those of the
Rust walk demand.
-/

namespace IndieWorker
namespace TypeScript

open Validation Findings

/-- The keywords of `map`, which JavaScript holds as `node`, apply a subschema to
a part of the instance, as a `branch` or otherwise. -/
inductive Applies (map : Map) (node : JsValue) : (branch : Bool) → (inst schema part : Json) → Prop
  | item {inst schema part : Json} {items : List Value} {items' : List JsValue} :
      map.get "items" = some schema.value → node.property "items" = some schema.js →
      inst.value = .array items → inst.js = .array items' →
      (part.value, part.js) ∈ items.zip items' → Applies map node false inst schema part
  | property {inst schema part : Json} {name : String} {object : Map}
      {object' : List (String × JsValue)} : listed map name = some schema.value →
      (node.property "properties").bind (JsValue.property · name) = some schema.js →
      inst.value = .object object → inst.js = .object object' →
      (name, part.value) ∈ object → (name, part.js) ∈ object' →
      Applies map node false inst schema part
  | additional {inst schema part : Json} {name : String} {object : Map}
      {object' : List (String × JsValue)} : listed map name = none →
      map.get "additionalProperties" = some schema.value → schema.value ≠ .bool false →
      node.property "additionalProperties" = some schema.js →
      inst.value = .object object → inst.js = .object object' →
      (name, part.value) ∈ object → (name, part.js) ∈ object' →
      Applies map node false inst schema part
  | branch {inst schema : Json} {branches : List Value} {branches' : List JsValue} :
      map.get "oneOf" = some (.array branches) → node.property "oneOf" = some (.array branches') →
      (schema.value, schema.js) ∈ branches.zip branches' → Applies map node true inst schema inst

/-- The two sides work with `map` and `node` where they meet `schema`. -/
def Node (document schema : Json) (map : Map) (node : JsValue) : Prop :=
  target document.value schema.value = some (.object map) ∧
    ∀ pointer, deref document.js pointer MAX_HOPS schema.js = .ok node

/-- The pairs of a subschema and a part of the instance that both walks meet; `below`
where a branch of `oneOf` leads there. -/
inductive Met (document inst : Json) : (below : Bool) → Json → Json → Prop
  | document : Met document inst false document inst
  | application {below branch : Bool} {schema part s v : Json} {map : Map} {node : JsValue} :
      Met document inst below schema part → Node document schema map node →
      typeHolds map (Validation.kindOf part.value) = true → Applies map node branch part s v →
      Met document inst (branch || below) s v

/-- A reference that both sides follow to the same keywords, or neither follows. -/
def RefAlike (root : Value) (reference : String) : Prop :=
  ∀ name, reference = "#/$defs/" ++ name →
    match Validation.definition root name with
    | none => name ∉ INHERITED
    | some (.bool b) => b = false
    | some schema => isDefName name = true ∧ ¬ IsAlias schema

/-- `RegExp` reads the pattern, and on this text its items as Rust does; or neither side
compiles it, which under `oneOf` ends only one of the walks. -/
def PatternAlike (u : Unicode) (es : EcmaScript) (below : Bool) (source text : String) : Prop :=
  (∃ p : Pattern, RegExp.Spelling p source ∧
      ∀ a ∈ p.atoms, ∀ c ∈ text.toList, Item.matches u a.item c = RegExp.itemMatches a.item c) ∨
    below = false ∧ (∀ p, Pattern.parse source ≠ .ok p) ∧ es.regExp.compile source = none

/-- What the keywords of an object compare with comes out alike. -/
structure KeywordsAlike (u : Unicode) (es : EcmaScript) (below : Bool) (map : Map)
    (node : JsValue) (inst : Json) : Prop where
  const : ∀ c c', map.get "const" = some c → node.property "const" = some c' →
    (c = inst.value ↔ c' = inst.js)
  enum : ∀ options options', map.get "enum" = some (.array options) →
    node.property "enum" = some (.array options') → (inst.value ∈ options ↔ inst.js ∈ options')
  counts : CountsKept map inst.value
  pattern : ∀ source text, map.get "pattern" = some (.string source) → inst.value = .string text →
    PatternAlike u es below source text

/-- What both sides read alike at a position. -/
structure Alike (u : Unicode) (es : EcmaScript) (document : Json) (below : Bool)
    (schema inst : Json) : Prop where
  ref : ∀ reference, schema.value.get "$ref" = some (.string reference) →
    RefAlike document.value reference
  keywords : ∀ map node, Node document schema map node →
    typeHolds map (Validation.kindOf inst.value) = true →
    KeywordsAlike u es below map node inst

/-- Only supported keywords with well-formed values, here and in all subschemas. -/
inductive Supported : Value → Prop
  | bool (b : Bool) : Supported (.bool b)
  | object {map : Map} : WellFormed map →
      (∀ v ∈ map.get "pattern", isStringOf (fun _ => true) v = true) →
      (∀ s ∈ subschemas map, Supported s) → Supported (.object map)

theorem Supported.leaf {map : Map} (hwf : WellFormed map)
    (hpattern : ∀ v ∈ map.get "pattern", isStringOf (fun _ => true) v = true)
    (hnone : subschemas map = []) : Supported (.object map) :=
  .object hwf hpattern fun s hs => by
    rw [hnone] at hs
    cases hs

/-- A document of supported keywords; its definitions are an object of schemas. -/
structure SupportedDocument (root : Value) : Prop where
  document : Supported root
  defs : ∀ v ∈ root.get "$defs", isObject v = true
  definitions : ∀ name s, Validation.definition root name = some s → Supported s

theorem SupportedDocument.of_defs {map defs : Map} (hget : map.get "$defs" = some (.object defs))
    (hdocument : Supported (.object map)) (hdefs : ∀ member ∈ defs, Supported member.2) :
    SupportedDocument (.object map) := by
  have hget' : (Value.object map).get "$defs" = some (.object defs) := hget
  refine ⟨hdocument, fun v hv => ?_, fun name s hs => ?_⟩
  · rw [hget'] at hv
    cases hv
    rfl
  · unfold Validation.definition at hs
    rw [hget'] at hs
    have hmem : (name, s) ∈ defs := Map.mem_of_get hs
    exact hdefs _ hmem

/-! ## What is read alike anyway -/

section Anyway

variable {u : Unicode} {es : EcmaScript}

/-- ASCII without carriage returns. -/
def isPlain (text : String) : Bool := text.toList.all fun c => decide (c.toNat < 128 ∧ c ≠ '\r')

/-- In a plain text, every pattern that both languages share is. -/
theorem patternAlike_of_isPlain {below : Bool} {p : Pattern} {source text : String}
    (hp : RegExp.Spelling p source) (htext : isPlain text = true) :
    PatternAlike u es below source text := by
  refine Or.inl ⟨p, hp, fun a _ c hc => ?_⟩
  obtain ⟨hascii, hcr⟩ := of_decide_eq_true (List.all_eq_true.mp htext c hc)
  exact itemMatches_of_ascii u hascii hcr a.item

/-- Among options that are strings, a string is found on both sides or on neither. -/
theorem enum_of_strings {text : String} {options : List Value} {options' : List JsValue}
    (h : List.Forall₂ Reads options options')
    (hstrings : ∀ o ∈ options, isStringOf (fun _ => true) o = true) :
    .string text ∈ options ↔ .string text ∈ options' := by
  induction h with
  | nil => simp
  | @cons o o' options options' hreads hrest ih =>
    obtain ⟨ho, hstrings⟩ := List.forall_mem_cons.mp hstrings
    rw [List.mem_cons, List.mem_cons, ih hstrings]
    cases o with
    | string s =>
      cases hreads
      rw [Value.string.injEq, JsValue.string.injEq]
    | _ => cases ho

end Anyway

/-! ## The rules, one by one -/

section Rules

variable {u : Unicode} {es : EcmaScript} {map : Map} {node : JsValue} {pointer : String}

theorem kindOf_eq {v : Value} {v' : JsValue} (h : Reads v v') :
    kindOf v' = Validation.kindOf v := by
  cases h with
  | number n =>
    cases n with
    | posInt n => simp [kindOf, Validation.kindOf, Number.isF64, Number.asF64]
    | negInt n hn => simp [kindOf, Validation.kindOf, Number.isF64, Number.asF64]
    | float x =>
      by_cases hx : x.value.den = 1
      · simp [kindOf, Validation.kindOf, Number.isF64, Number.asF64, hx]
      · simp [kindOf, Validation.kindOf, Number.isF64, Number.asF64, hx]
  | _ => rfl

theorem unsupportedKeywords_eq_nil (hnode : Reads (.object map) node) :
    unsupportedKeywords node pointer = [] ↔ KnownKeys map := by
  cases hnode with
  | object _ _ hkeys _ =>
    rw [unsupportedKeywords, List.map_eq_nil_iff, List.filter_eq_nil_iff]
    simp only [JsValue.keys, ← hkeys, Bool.not_eq_true', Bool.not_eq_false]
    rfl

theorem any_typeMatches {types : List Value} {types' : List JsValue}
    (h : List.Forall₂ Reads types types') (actual : String) :
    types'.any (typeMatches · actual) =
      (types.filterMap Value.asStr).any (Validation.typeMatches · actual) := by
  induction h with
  | nil => rfl
  | cons hreads _ ih =>
    rw [List.any_cons, ih]
    cases hreads <;> simp [typeMatches, Validation.typeMatches, Value.asStr]

/-- Types that are named by strings have texts. -/
theorem texts_of_strings {types : List Value} {types' : List JsValue}
    (h : List.Forall₂ Reads types types')
    (hstrings : ∀ t ∈ types, isStringOf TYPES.contains t = true) :
    ∃ texts, es.texts types' = some texts := by
  induction h with
  | nil => exact ⟨[], rfl⟩
  | @cons t t' types types' hreads hrest ih =>
    obtain ⟨ht, hstrings⟩ := List.forall_mem_cons.mp hstrings
    obtain ⟨texts, htexts⟩ := ih hstrings
    cases t with
    | string s =>
      cases hreads
      exact ⟨s :: texts, by rw [EcmaScript.texts, htexts]; rfl⟩
    | _ => cases ht

variable (es pointer) in
/-- The type of a node is met, or there is a violation. -/
theorem typeRule_cases (hwf : WellFormed map) (hnode : Reads (.object map) node)
    {actual : String} :
    (typeHolds map actual = true ∧ typeRule es node actual pointer = .ok none) ∨
      typeHolds map actual ≠ true ∧
        ∃ violation, typeRule es node actual pointer = .ok (some violation) := by
  have hnames : ∀ type, node.property "type" = some type →
      typeHolds map actual = (expectedTypes type).any (typeMatches · actual) →
      (∃ texts, es.texts (expectedTypes type) = some texts) →
      (typeHolds map actual = true ∧ typeRule es node actual pointer = .ok none) ∨
        typeHolds map actual ≠ true ∧
          ∃ violation, typeRule es node actual pointer = .ok (some violation) := by
    intro type hget heq htexts
    obtain ⟨texts, htexts⟩ := htexts
    unfold typeRule
    rw [hget, heq]
    dsimp only
    by_cases hany : (expectedTypes type).any (typeMatches · actual) = true
    · rw [if_pos hany]
      exact Or.inl ⟨hany, rfl⟩
    · rw [if_neg hany, htexts]
      exact Or.inr ⟨hany, _, rfl⟩
  rcases hnode.keyword "type" with ⟨hget, hget'⟩ | ⟨v, v', hget, hget', hreads⟩
  · refine Or.inl ⟨?_, ?_⟩
    · rw [typeHolds, hget]
    · rw [typeRule, hget']
  · have hv := hwf.type v hget
    cases v with
    | array types =>
      obtain ⟨types', rfl, -, htypes⟩ := Reads.array_iff.mp hreads
      refine hnames _ hget' ?_ (texts_of_strings htypes ?_)
      · rw [typeHolds, hget]
        exact (any_typeMatches htypes actual).symm
      · simpa [isType, isStringOf, isArrayOf] using hv
    | string t =>
      cases hreads
      refine hnames _ hget' ?_ ⟨[t], rfl⟩
      rw [typeHolds, hget]
      simp [expectedTypes, typeMatches, Validation.typeMatches]
    | _ => cases hv

theorem constRule_eq_nil (hnode : Reads (.object map) node) {below : Bool} {inst : Json}
    (h : KeywordsAlike u es below map node inst) :
    constRule es node inst.js pointer = [] ↔ ConstOk map inst.value := by
  unfold constRule ConstOk
  rcases hnode.keyword "const" with ⟨hget, hget'⟩ | ⟨c, c', hget, hget', -⟩
  · simp [hget, hget']
  · simp [hget, hget', es.json_inj, h.const c c' hget hget', eq_comm]

theorem enumRule_eq_nil (hnode : Reads (.object map) node) {below : Bool} {inst : Json}
    (h : KeywordsAlike u es below map node inst) :
    enumRule es node inst.js pointer = [] ↔ EnumOk map inst.value := by
  unfold enumRule EnumOk
  rcases hnode.keyword "enum" with ⟨hget, hget'⟩ | ⟨v, v', hget, hget', hreads⟩
  · simp [hget, hget']
  · rw [hget, hget']
    cases v with
    | array options =>
      obtain ⟨options', rfl, -, -⟩ := Reads.array_iff.mp hreads
      simp [es.json_inj, h.enum options options' hget hget']
    | _ =>
      cases hreads
      simp

/-- A bound that is a number is compared and printed. -/
theorem boundRule_number {broken : JsValue → Option Bool} {key : String}
    {violation : String → Violation} {bound : Binary64} {isBroken : Bool} {P : Prop}
    (hget : node.property key = some (.number bound))
    (hbroken : broken (.number bound) = some isBroken) (hP : isBroken = false ↔ P)
    {mustEnd : Bool} : Decides mustEnd (boundRule es broken node key violation) P := by
  unfold boundRule
  rw [hget]
  dsimp only
  rw [hbroken]
  cases isBroken with
  | false => exact decides_ok (iff_of_true rfl (hP.mp rfl))
  | true => exact decides_ok (iff_of_false (List.cons_ne_nil _ _) fun h => nomatch hP.mpr h)

theorem boundRule_none {broken : JsValue → Option Bool} {key : String}
    {violation : String → Violation} (hget : node.property key = none) :
    boundRule es broken node key violation = .ok [] := by
  rw [boundRule, hget]

/-- What a well-formed count is to both languages. -/
theorem count_cases (hwf : WellFormed map) (hnode : Reads (.object map) node) {key : String}
    (hkey : key ∈ ["minLength", "maxLength", "minItems", "maxItems"]) :
    (map.get key = none ∧ node.property key = none) ∨
      (∃ n : UInt64, map.get key = some (.number (.posInt n)) ∧
        node.property key = some (.number (.ofNat n.toNat n.toNat_lt))) ∨
      ∃ x : Binary64, map.get key = some (.number (.float x)) ∧
        node.property key = some (.number x) := by
  rcases hnode.keyword key with hnone | ⟨v, v', hget, hget', hreads⟩
  · exact Or.inl hnone
  · have hv := hwf.counts key hkey v hget
    cases v with
    | number n =>
      cases hreads
      cases n with
      | posInt n => exact Or.inr (Or.inl ⟨n, hget, hget'⟩)
      | negInt n hn =>
        rw [isCount, Bool.and_eq_true] at hv
        have hnonneg : (0 : ℚ) ≤ n := of_decide_eq_true hv.2
        have : 0 ≤ n := by exact_mod_cast hnonneg
        omega
      | float x => exact Or.inr (Or.inr ⟨x, hget, hget'⟩)
    | _ => cases hv

/-- The bounds on a length are read alike, though JavaScript rounds them and Rust passes
over some. -/
theorem lengthRules_decide (hwf : WellFormed map) (hnode : Reads (.object map) node)
    {lo hi : String} (hlo : lo ∈ ["minLength", "maxLength", "minItems", "maxItems"])
    (hhi : hi ∈ ["minLength", "maxLength", "minItems", "maxItems"]) {length : Nat}
    (hlength : length < 2 ^ 53) (hkept : KeepsUnread map lo hi length)
    {below above : String → Violation} {mustEnd : Bool} :
    Decides mustEnd
      (andThen (belowRule es node lo length below) (aboveRule es node hi length above))
      (LengthOk map lo hi length) := by
  refine Decides.andThen ?_ ?_
  · rcases count_cases hwf hnode hlo with ⟨hget, hget'⟩ | ⟨n, hget, hget'⟩ | ⟨x, hget, hget'⟩
    · rw [belowRule, boundRule_none hget']
      exact decides_ok (by simp [hget])
    · refine boundRule_number hget' rfl ?_
      simp [hget, Value.asU64, Number.asU64, roundNat_le_iff hlength]
    · refine boundRule_number hget' rfl ?_
      have hle : x.value ≤ length := hkept.1 _ hget rfl
      simp [hget, Value.asU64, Number.asU64, hle]
  · rcases count_cases hwf hnode hhi with ⟨hget, hget'⟩ | ⟨n, hget, hget'⟩ | ⟨x, hget, hget'⟩
    · rw [aboveRule, boundRule_none hget']
      exact decides_ok (by simp [hget])
    · refine boundRule_number hget' rfl ?_
      simp [hget, Value.asU64, Number.asU64, le_roundNat_iff hlength]
    · refine boundRule_number hget' rfl ?_
      have hle : (length : ℚ) ≤ x.value := hkept.2 _ hget rfl
      simp [hget, Value.asU64, Number.asU64, hle]

theorem numberRules_decide (hwf : WellFormed map) (hnode : Reads (.object map) node)
    {x : Binary64} {mustEnd : Bool} :
    Decides mustEnd (numberRules es node x pointer) (NumberOk map x) := by
  have hlimit : ∀ key ∈ ["minimum", "maximum"],
      (map.get key = none ∧ node.property key = none) ∨ ∃ n : Number,
        map.get key = some (.number n) ∧ node.property key = some (.number n.asF64) := by
    intro key hkey
    rcases hnode.keyword key with hnone | ⟨v, v', hget, hget', hreads⟩
    · exact Or.inl hnone
    · obtain ⟨y, hy⟩ := Option.isSome_iff_exists.mp (hwf.limits key hkey v hget)
      obtain ⟨n, rfl, -⟩ := Value.asF64_eq_some.mp hy
      cases hreads
      exact Or.inr ⟨n, hget, hget'⟩
  refine Decides.andThen ?_ ?_
  · rcases hlimit "minimum" (by decide) with ⟨hget, hget'⟩ | ⟨n, hget, hget'⟩
    · rw [belowRule, boundRule_none hget']
      exact decides_ok (by simp [hget])
    · refine boundRule_number hget' rfl ?_
      simp [hget, Value.asF64]
  · rcases hlimit "maximum" (by decide) with ⟨hget, hget'⟩ | ⟨n, hget, hget'⟩
    · rw [aboveRule, boundRule_none hget']
      exact decides_ok (by simp [hget])
    · refine boundRule_number hget' rfl ?_
      simp [hget, Value.asF64]

theorem forall_asStr_iff {P : String → Prop} {s : String} :
    (∀ t, (some (Value.string s)).bind Value.asStr = some t → P t) ↔ P s := by
  refine ⟨fun h => h s rfl, fun h t ht => ?_⟩
  cases ht
  exact h

/-- A pattern that both engines read is tested with the same outcome, and one that
neither reads is met by nothing. -/
theorem patternRule_decides (hnode : Reads (.object map) node)
    (hstring : ∀ v ∈ map.get "pattern", isStringOf (fun _ => true) v = true) {text : String}
    (hlength : text.toList.length < 2 ^ 53) {below : Bool}
    (h : ∀ source, map.get "pattern" = some (.string source) →
      PatternAlike u es below source text) :
    Decides below (patternRule es node text pointer)
      (∀ p, (map.get "pattern").bind Value.asStr = some p → PatternOk u p text) := by
  unfold patternRule
  rcases hnode.keyword "pattern" with ⟨hget, hget'⟩ | ⟨v, v', hget, hget', hreads⟩
  · rw [hget, hget']
    exact decides_ok (by simp)
  · have hv := hstring v hget
    cases v with
    | string source =>
      cases hreads
      rw [hget, hget', forall_asStr_iff]
      dsimp only [EcmaScript.text]
      rcases h source hget with ⟨p, hspelling, hitems⟩ | ⟨rfl, hparse, hcompile⟩
      · obtain ⟨test, hcompile, htest⟩ := es.regExp.compile_spelled p source hspelling
        rw [hcompile]
        refine decides_test ?_
        rw [htest text hlength, ← p.matches_congr hitems, PatternOk,
          RegExp.parse_of_spelling hspelling]
        simp [Pattern.isMatch_iff]
      · rw [hcompile]
        refine decides_error fun hok => ?_
        obtain ⟨p, hp, -⟩ := hok
        exact hparse p hp
    | _ => cases hv

theorem formatRule_decides (hwf : WellFormed map) (hnode : Reads (.object map) node)
    {text : String} {mustEnd : Bool} :
    Decides mustEnd (formatRule es node text pointer)
      (∀ f, (map.get "format").bind Value.asStr = some f → FormatOk f text) := by
  unfold formatRule
  rcases hnode.keyword "format" with ⟨hget, hget'⟩ | ⟨v, v', hget, hget', hreads⟩
  · rw [hget, hget']
    exact decides_ok (by simp)
  · have hv := hwf.format v hget
    cases v with
    | string f =>
      cases hreads
      rw [hget, hget', forall_asStr_iff]
      have htest : ∃ test, formatTest f = some test ∧ (test text = true ↔ FormatOk f text) := by
        have hmem : f ∈ FORMAT_NAMES := by simpa [isStringOf] using hv
        simp only [FORMAT_NAMES, List.mem_cons, List.not_mem_nil, or_false] at hmem
        rcases hmem with rfl | rfl | rfl | rfl <;>
          exact ⟨_, rfl, by simp [FormatOk]⟩
      obtain ⟨test, hsome, hiff⟩ := htest
      dsimp only [EcmaScript.text]
      rw [hsome]
      exact decides_test hiff
    | _ => cases hv

theorem stringRules_decides (hwf : WellFormed map) (hnode : Reads (.object map) node)
    (hstring : ∀ v ∈ map.get "pattern", isStringOf (fun _ => true) v = true) {text : String}
    (hlength : text.toList.length < 2 ^ 53) (hkept : CountsKept map (.string text)) {below : Bool}
    (h : ∀ source, map.get "pattern" = some (.string source) →
      PatternAlike u es below source text) :
    Decides below (stringRules es node text pointer) (StringOk u map text) :=
  (lengthRules_decide hwf hnode (by decide) (by decide) hlength hkept).andThen
    ((patternRule_decides hnode hstring hlength h).andThen (formatRule_decides hwf hnode))

theorem requiredRule_decides (hwf : WellFormed map) (hnode : Reads (.object map) node)
    {object : Map} {object' : List (String × JsValue)}
    (hobject : Reads (.object object) (.object object')) {mustEnd : Bool} :
    Decides mustEnd (requiredRule es node object' pointer) (RequiredOk map object) := by
  unfold requiredRule RequiredOk
  rcases hnode.keyword "required" with ⟨hget, hget'⟩ | ⟨v, v', hget, hget', hreads⟩
  · rw [hget, hget']
    exact decides_ok (by simp)
  · have hv := hwf.required v hget
    cases v with
    | array names =>
      obtain ⟨names', rfl, -, hnames⟩ := Reads.array_iff.mp hreads
      have hstrings : ∀ x ∈ names, isStringOf (fun _ => true) x = true := by
        simpa [isArrayOf] using hv
      have hturns : List.Forall₂ (fun x y => Decides mustEnd (requiredName es object' y pointer)
          (∀ name, x = .string name → (object.get name).isSome)) names names' := by
        rw [List.forall₂_iff_zip] at hnames ⊢
        refine ⟨hnames.1, fun {x y} hp => ?_⟩
        have hx := hstrings x (List.of_mem_zip hp).1
        have hxy := hnames.2 hp
        cases x with
        | string name =>
          cases hxy
          unfold requiredName
          dsimp only [EcmaScript.text]
          rcases hobject.keyword name with ⟨hnone, hnone'⟩ | ⟨w, w', hsome, hsome', -⟩
          · rw [show object'.lookup name = none from hnone']
            exact decides_ok (by simp [hnone])
          · rw [show object'.lookup name = some w' from hsome']
            exact decides_ok (by simp [hsome])
        | _ => cases hx
      rw [hget, hget']
      refine (Decides.forEach hturns).congr ?_
      simp only [Option.some.injEq, Value.array.injEq, forall_eq']
      constructor
      · exact fun h name hmem => h _ hmem name rfl
      · intro h _ hmem name heq
        subst heq
        exact h name hmem
    | _ => cases hv

section Child

variable {child : JsValue → JsValue → String → Except Stop (List Violation)}
  {R : Value → Value → Prop} {inst : Json} {below : Bool}

theorem arrayRules_decides (hwf : WellFormed map) (hnode : Reads (.object map) node)
    (hchild : ∀ branch s v, Applies map node branch inst s v → ∀ pointer,
      Decides (branch || below) (child s.js v.js pointer) (R s.value v.value))
    {items : List Value} {items' : List JsValue} (hkept : CountsKept map (.array items))
    (hinst : inst.value = .array items) (hinst' : inst.js = .array items') :
    Decides below (arrayRules es child node items' pointer) (ArrayOk R map items) := by
  obtain ⟨_, heq, hlength, hitems⟩ := Reads.array_iff.mp (hinst ▸ inst.reads)
  rw [hinst'] at heq
  cases heq
  unfold arrayRules lengthRules
  rw [← hitems.length_eq]
  refine (lengthRules_decide hwf hnode (by decide) (by decide) hlength hkept).andThen ?_
  rcases hnode.keyword "items" with ⟨hget, hget'⟩ | ⟨s, s', hget, hget', hreads⟩
  · rw [hget, hget']
    exact decides_ok (by simp)
  · rw [hget, hget']
    obtain ⟨hlen, hzip⟩ := List.forall₂_iff_zip.mp hitems
    have hturns : List.Forall₂ (fun item item' => ∀ pointer,
        Decides below (child s' item' pointer) (R s item)) items items' :=
      List.forall₂_iff_zip.mpr ⟨hlen, fun {item item'} hp =>
        hchild false ⟨s, s', hreads⟩ ⟨item, item', hzip hp⟩ (.item hget hget' hinst hinst' hp)⟩
    rw [← List.zipIdx_map_fst 0 items', List.forall₂_map_right_iff] at hturns
    refine (Decides.forEach (hturns.imp fun item entry h => h _)).congr ?_
    simp

/-- The schema that `properties` lists for a member is there in both languages or in neither. -/
theorem listed_cases (hwf : WellFormed map) (hnode : Reads (.object map) node) (name : String) :
    (listed map name = none ∧ (node.property "properties").bind (JsValue.property · name) = none) ∨
      ∃ s s', listed map name = some s ∧
        (node.property "properties").bind (JsValue.property · name) = some s' ∧ Reads s s' := by
  unfold listed
  rcases hnode.keyword "properties" with ⟨hget, hget'⟩ | ⟨own, own', hget, hget', hreads⟩
  · rw [hget, hget']
    exact Or.inl ⟨rfl, rfl⟩
  · obtain ⟨members, hmembers⟩ := Option.isSome_iff_exists.mp (hwf.properties own hget)
    obtain rfl := Value.asObject_eq_some.mp hmembers
    rw [hget, hget']
    exact hreads.keyword name

theorem memberRule_decides (hwf : WellFormed map) (hnode : Reads (.object map) node)
    (hother : ∀ s ∈ map.get "additionalProperties", Supported s)
    (htrue : ∀ s v, Applies map node false inst s v → s.value = .bool true → R s.value v.value)
    (hchild : ∀ branch s v, Applies map node branch inst s v → ∀ pointer,
      Decides (branch || below) (child s.js v.js pointer) (R s.value v.value))
    {object : Map} {object' : List (String × JsValue)} (hinst : inst.value = .object object)
    (hinst' : inst.js = .object object') {name : String} {w : Value} {w' : JsValue}
    (hw : (name, w) ∈ object) (hw' : (name, w') ∈ object') (hreads : Reads w w') :
    Decides below (memberRule child node name w' pointer) (MemberOk R map name w) := by
  unfold memberRule MemberOk
  dsimp only
  rcases listed_cases hwf hnode name with ⟨hnone, hnone'⟩ | ⟨s, s', hsome, hsome', hs⟩
  · rw [hnone, hnone']
    rcases hnode.keyword "additionalProperties" with ⟨hget, hget'⟩ | ⟨s, s', hget, hget', hs⟩
    · rw [hget, hget']
      exact decides_ok (by simp)
    · have happlies : s ≠ .bool false → Applies map node false inst ⟨s, s', hs⟩ ⟨w, w', hreads⟩ :=
        fun hne => .additional hnone hget hne hget' hinst hinst' hw hw'
      rw [hget, hget']
      cases hother s hget with
      | bool b =>
        cases hs
        cases b with
        | false => exact decides_ok (by simp)
        | true => exact decides_ok (iff_of_true rfl (htrue _ _ (happlies (by simp)) rfl))
      | object =>
        cases hs
        exact hchild false _ _ (happlies (by simp)) _
  · rw [hsome, hsome']
    exact hchild false ⟨s, s', hs⟩ ⟨w, w', hreads⟩ (.property hsome hsome' hinst hinst' hw hw') _

theorem objectRules_decides (hwf : WellFormed map) (hnode : Reads (.object map) node)
    (hother : ∀ s ∈ map.get "additionalProperties", Supported s)
    (htrue : ∀ s v, Applies map node false inst s v → s.value = .bool true → R s.value v.value)
    (hchild : ∀ branch s v, Applies map node branch inst s v → ∀ pointer,
      Decides (branch || below) (child s.js v.js pointer) (R s.value v.value))
    {object : Map} {object' : List (String × JsValue)} (hinst : inst.value = .object object)
    (hinst' : inst.js = .object object') :
    Decides below (objectRules es child node object' pointer) (ObjectOk R map object) := by
  have hobject : Reads (.object object) (.object object') := hinst ▸ hinst' ▸ inst.reads
  refine (requiredRule_decides hwf hnode hobject).andThen ?_
  cases hobject with
  | object hnodup hnodup' hkeys hmembers =>
    -- a member of one side is met with the member of that name of the other
    have hturns : List.Forall₂ (fun m m' =>
        Decides below (memberRule child node m'.1 m'.2 pointer)
          (∀ w, (m.1, w) ∈ object → MemberOk R map m.1 w)) object' object' := by
      rw [List.forall₂_same]
      intro member hw'
      obtain ⟨name, w'⟩ := member
      obtain ⟨⟨name, w⟩, hw, rfl⟩ := List.mem_map.mp ((hkeys name).mpr (List.mem_map_of_mem hw'))
      refine (memberRule_decides hwf hnode hother htrue hchild hinst hinst' hw hw'
        (hmembers _ _ _ hw hw')).congr ⟨fun h v hv => ?_, fun h => h w hw⟩
      have hget := (lookup_eq_some_iff hnodup).mpr hv
      rw [(lookup_eq_some_iff hnodup).mpr hw] at hget
      cases hget
      exact h
    refine (Decides.forEach hturns).congr ⟨fun h member hmember => ?_, fun h m' hm' w hw => ?_⟩
    · obtain ⟨m', hm', heq⟩ := List.mem_map.mp ((hkeys member.1).mp (List.mem_map_of_mem hmember))
      have := h m' hm' member.2
      rw [heq] at this
      exact this hmember
    · exact h (m'.1, w) hw

theorem oneOfRule_decides (hwf : WellFormed map) (hnode : Reads (.object map) node)
    (hchild : ∀ branch s v, Applies map node branch inst s v → ∀ pointer,
      Decides (branch || below) (child s.js v.js pointer) (R s.value v.value)) :
    Decides below (oneOfRule child node inst.js pointer) (OneOfOk R map inst.value) := by
  unfold oneOfRule OneOfOk
  rcases hnode.keyword "oneOf" with ⟨hget, hget'⟩ | ⟨v, v', hget, hget', hreads⟩
  · rw [hget, hget']
    exact decides_ok (by simp)
  · have hv := hwf.oneOf v hget
    cases v with
    | array branches =>
      obtain ⟨branches', rfl, -, hbranches⟩ := Reads.array_iff.mp hreads
      obtain ⟨hlen, hzip⟩ := List.forall₂_iff_zip.mp hbranches
      have hturns : List.Forall₂ (fun branch branch' =>
          Decides true (child branch' inst.js pointer) (R branch inst.value)) branches branches' :=
        List.forall₂_iff_zip.mpr ⟨hlen, fun {branch branch'} hp =>
          hchild true ⟨branch, branch', hzip hp⟩ inst (.branch hget hget' hp) pointer⟩
      classical
      obtain ⟨kept, hkept, hcount⟩ := clean_length hturns
        (p := fun branch => decide (R branch inst.value)) (by simp)
      have hone := filter_length_eq_one_iff (l := branches)
        (p := fun branch => decide (R branch inst.value))
      rw [← hcount] at hone
      rw [hget, hget']
      dsimp only
      rw [hkept]
      dsimp only
      by_cases h : kept.length = 1
      · rw [if_neg (by simpa using h)]
        exact decides_ok (by simpa using hone.mp h)
      · rw [if_pos h]
        exact decides_ok (by simpa using fun hex => h (hone.mpr (by simpa using hex)))
    | _ => cases hv

theorem kindRules_decides (hwf : WellFormed map)
    (hstring : ∀ v ∈ map.get "pattern", isStringOf (fun _ => true) v = true)
    (hnode : Reads (.object map) node) (halike : KeywordsAlike u es below map node inst)
    (hother : ∀ s ∈ map.get "additionalProperties", Supported s)
    (htrue : ∀ s v, Applies map node false inst s v → s.value = .bool true → R s.value v.value)
    (hchild : ∀ branch s v, Applies map node branch inst s v → ∀ pointer,
      Decides (branch || below) (child s.js v.js pointer) (R s.value v.value)) :
    Decides below (kindRules es child node inst.js pointer) (KindOk R u map inst.value) := by
  have hpattern := halike.pattern
  have hcounts := halike.counts
  have hreads := inst.reads
  generalize hinst : inst.value = v at hreads hpattern hcounts
  generalize hinst' : inst.js = v' at hreads
  cases hreads with
  | null => exact decides_ok (by simp [KindOk])
  | bool b => exact decides_ok (by simp [KindOk])
  | number n => exact numberRules_decide hwf hnode
  | string hlength =>
    exact stringRules_decides hwf hnode hstring hlength hcounts fun source hget =>
      hpattern source _ hget rfl
  | array => exact arrayRules_decides hwf hnode hchild hcounts hinst hinst'
  | object => exact objectRules_decides hwf hnode hother htrue hchild hinst hinst'

/-- A node that both sides work with passes on both or on neither, if its keywords
are read alike and its parts fare alike. -/
theorem nodeRules_decides (hmap : Supported (.object map)) (hnode : Reads (.object map) node)
    (halike : typeHolds map (Validation.kindOf inst.value) = true →
      KeywordsAlike u es below map node inst)
    (htrue : typeHolds map (Validation.kindOf inst.value) = true →
      ∀ s v, Applies map node false inst s v → s.value = .bool true → R s.value v.value)
    (hchild : typeHolds map (Validation.kindOf inst.value) = true →
      ∀ branch s v, Applies map node branch inst s v → ∀ pointer,
        Decides (branch || below) (child s.js v.js pointer) (R s.value v.value)) :
    Decides below (nodeRules es child node inst.js pointer) (ObjectStep R u map inst.value) := by
  have hstep : ObjectStep R u map inst.value ↔ KnownKeys map ∧
      typeHolds map (Validation.kindOf inst.value) = true ∧
        (ConstOk map inst.value ∧ EnumOk map inst.value) ∧
          KindOk R u map inst.value ∧ OneOfOk R map inst.value :=
    ⟨fun h => ⟨h.keys, h.type, ⟨h.const, h.enum⟩, h.kind, h.oneOf⟩,
      fun ⟨hkeys, htype, ⟨hconst, henum⟩, hkind, hone⟩ =>
        ⟨hkeys, htype, hconst, henum, hkind, hone⟩⟩
  cases hmap with
  | object hwf hstring hsubschemas =>
    have hother : ∀ s ∈ map.get "additionalProperties", Supported s := by
      intro s hs
      refine hsubschemas s (List.mem_append_left _ (List.mem_append_right _ ?_))
      rw [show map.get "additionalProperties" = some s from hs]
      exact List.mem_singleton_self s
    unfold nodeRules
    rw [hstep, kindOf_eq inst.reads]
    refine (decides_ok (unsupportedKeywords_eq_nil hnode)).andThen ?_
    rcases typeRule_cases es pointer hwf hnode with
      ⟨hholds, htype⟩ | ⟨hfails, violation, htype⟩
    · rw [htype]
      have hkind : Decides below (kindRules es child node inst.js pointer)
          (KindOk R u map inst.value) :=
        kindRules_decides hwf hstring hnode (halike hholds) hother (htrue hholds)
          (hchild hholds)
      have hfirst : constRule es node inst.js pointer ++ enumRule es node inst.js pointer = [] ↔
          ConstOk map inst.value ∧ EnumOk map inst.value := by
        rw [List.append_eq_nil_iff, constRule_eq_nil hnode (halike hholds),
          enumRule_eq_nil hnode (halike hholds)]
      refine ((decides_ok hfirst).andThen
        (hkind.andThen (oneOfRule_decides hwf hnode (hchild hholds)))).congr ?_
      rw [and_iff_right hholds]
    · rw [htype]
      exact decides_ok (iff_of_false (by simp) fun h => hfails h.1)

end Child

end Rules

end TypeScript
end IndieWorker
