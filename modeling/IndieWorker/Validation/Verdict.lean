import IndieWorker.Validation.JsonSchema

/-!
# The verdict of the validator

A node reports nothing exactly when its own keywords hold and its children report
nothing.  `Step` says so with an arbitrary verdict for the children, `applied`
lists the children a node is applied to, and a verdict depends on no other.
Where chains of applications are bounded, neither pointer nor depth matters.
-/

namespace IndieWorker
namespace Validation

/-! ## What the keywords of one object demand -/

def KnownKeys (map : Map) : Prop := ∀ key ∈ map.keys, isSupportedKey key = true

instance (map : Map) : Decidable (KnownKeys map) :=
  inferInstanceAs (Decidable (∀ key ∈ map.keys, isSupportedKey key = true))

/-- `type` admits the kind; a list means any of. -/
def typeHolds (map : Map) (actual : String) : Bool :=
  match map.get "type" with
  | none => true
  | some (.string t) => typeMatches t actual
  | some (.array list) => (list.filterMap Value.asStr).any (typeMatches · actual)
  | some _ => false

def ConstOk (map : Map) (inst : Value) : Prop := ∀ c, map.get "const" = some c → c = inst

def EnumOk (map : Map) (inst : Value) : Prop :=
  ∀ options, map.get "enum" = some (.array options) → inst ∈ options

/-- The bounds `lo` and `hi` on a length, where they are given. -/
def LengthOk (map : Map) (lo hi : String) (length : Nat) : Prop :=
  (∀ n, (map.get lo).bind Value.asU64 = some n → n.toNat ≤ length) ∧
    ∀ n, (map.get hi).bind Value.asU64 = some n → length ≤ n.toNat

def PatternOk (u : Unicode) (pattern text : String) : Prop :=
  ∃ compiled, Pattern.parse pattern = .ok compiled ∧ compiled.isMatch (Item.matches u) text = true

def FORMAT_NAMES : List String := ["uuid", "date-time", "date", "byte"]

def FormatOk (format text : String) : Prop :=
  format = "uuid" ∧ text.toList ∈ FORMATS.uuid ∨
    format = "date-time" ∧ text.toList ∈ FORMATS.dateTime ∨
    format = "date" ∧ text.toList ∈ FORMATS.date ∨
    format = "byte" ∧ text.toList ∈ FORMATS.byte

def StringOk (u : Unicode) (map : Map) (text : String) : Prop :=
  LengthOk map "minLength" "maxLength" text.toList.length ∧
    (∀ p, (map.get "pattern").bind Value.asStr = some p → PatternOk u p text) ∧
    ∀ f, (map.get "format").bind Value.asStr = some f → FormatOk f text

def NumberOk (map : Map) (value : Binary64) : Prop :=
  (∀ min, (map.get "minimum").bind Value.asF64 = some min → min.value ≤ value.value) ∧
    ∀ max, (map.get "maximum").bind Value.asF64 = some max → value.value ≤ max.value

def RequiredOk (map object : Map) : Prop :=
  ∀ required, map.get "required" = some (.array required) →
    ∀ name, Value.string name ∈ required → (object.get name).isSome

/-- One entry holds and no other does. -/
def ExactlyOne {α : Type} (P : α → Prop) (l : List α) : Prop :=
  ∃ before x after, l = before ++ x :: after ∧ P x ∧ ∀ y ∈ before ++ after, ¬ P y

/-- The schema that `properties` lists for a member. -/
def listed (map : Map) (name : String) : Option Value :=
  ((map.get "properties").bind Value.asObject).bind (Map.get · name)

section Children

variable (R : Value → Value → Prop)

def ArrayOk (map : Map) (items : List Value) : Prop :=
  LengthOk map "minItems" "maxItems" items.length ∧
    ∀ schema, map.get "items" = some schema → ∀ item ∈ items, R schema item

def MemberOk (map : Map) (name : String) (value : Value) : Prop :=
  match listed map name with
  | some schema => R schema value
  | none =>
    match map.get "additionalProperties" with
    | some (.bool false) => False
    | some schema => R schema value
    | none => True

def ObjectOk (map object : Map) : Prop :=
  RequiredOk map object ∧ ∀ member ∈ object, MemberOk R map member.1 member.2

def OneOfOk (map : Map) (inst : Value) : Prop :=
  ∀ branches, map.get "oneOf" = some (.array branches) →
    ExactlyOne (fun branch => R branch inst) branches

def KindOk (u : Unicode) (map : Map) (inst : Value) : Prop :=
  match inst with
  | .string text => StringOk u map text
  | .number n => NumberOk map n.asF64
  | .array items => ArrayOk R map items
  | .object object => ObjectOk R map object
  | _ => True

structure ObjectStep (u : Unicode) (map : Map) (inst : Value) : Prop where
  keys : KnownKeys map
  type : typeHolds map (kindOf inst) = true
  const : ConstOk map inst
  enum : EnumOk map inst
  kind : KindOk R u map inst
  oneOf : OneOfOk R map inst

end Children

/-- The schema a node works with, behind at most one reference. -/
def target (root schema : Value) : Option Value :=
  match (schema.get "$ref").bind Value.asStr with
  | none => some schema
  | some reference => (stripPrefix "#/$defs/" reference).bind (definition root)

/-- The schema is a reference. -/
def IsAlias (schema : Value) : Prop := ∃ reference, schema.get "$ref" = some (.string reference)

/-- A node passes, if `R` is the verdict on its children. -/
def Step (u : Unicode) (root : Value) (R : Value → Value → Prop) (schema inst : Value) : Prop :=
  match schema with
  | .bool b => b = true
  | .object members =>
    match target root (.object members) with
    | some (.object map) => ObjectStep R u map inst
    | _ => False
  | _ => False

/-! ## The children of a node -/

/-- The schema a member is validated against. -/
def memberSchema (map : Map) (name : String) : Option Value :=
  match listed map name with
  | some schema => some schema
  | none =>
    match map.get "additionalProperties" with
    | some (.bool false) => none
    | other => other

/-- What `items`, `properties` and `additionalProperties` apply to an instance. -/
def kindApplications (map : Map) (inst : Value) : List (Value × Value) :=
  match inst with
  | .array items =>
    match map.get "items" with
    | some schema => items.map (schema, ·)
    | none => []
  | .object object => object.filterMap fun member => (memberSchema map member.1).map (·, member.2)
  | _ => []

/-- What `oneOf` applies to an instance. -/
def oneOfApplications (map : Map) (inst : Value) : List (Value × Value) :=
  match map.get "oneOf" with
  | some (.array branches) => branches.map (·, inst)
  | _ => []

/-- The applications of subschemas that the object `map` makes to an instance. -/
def applications (map : Map) (inst : Value) : List (Value × Value) :=
  kindApplications map inst ++ oneOfApplications map inst

/-- The applications a node makes; one whose type does not match makes none. -/
def applied (root schema inst : Value) : List (Value × Value) :=
  match schema with
  | .object members =>
    match target root (.object members) with
    | some (.object map) => if typeHolds map (kindOf inst) then applications map inst else []
    | _ => []
  | _ => []

/-! ## The rules, one by one -/

section Rules

variable {host : Host} {map : Map} {inst : Value} {here : String}

theorem unsupportedKeywords_eq_nil : unsupportedKeywords map here = [] ↔ KnownKeys map := by
  rw [unsupportedKeywords, List.map_eq_nil_iff, List.filter_eq_nil_iff]
  simp [KnownKeys]

theorem typeRule_eq_none {actual : String} :
    typeRule host map actual here = none ↔ typeHolds map actual = true := by
  unfold typeRule typeHolds
  rcases map.get "type" with _ | v
  · simp
  · cases v <;> simp

/-- Behind its keywords and its type, an object reports what the rest reports. -/
theorem typed_eq_nil {rest : List Violation} :
    (unsupportedKeywords map here ++
      match typeRule host map (kindOf inst) here with
      | some violation => [violation]
      | none => rest) = [] ↔
      KnownKeys map ∧ typeHolds map (kindOf inst) = true ∧ rest = [] := by
  have htype : typeRule host map (kindOf inst) here = none ↔ typeHolds map (kindOf inst) = true :=
    typeRule_eq_none
  rw [List.append_eq_nil_iff, unsupportedKeywords_eq_nil, ← htype]
  rcases typeRule host map (kindOf inst) here with _ | violation
  · simp
  · simp

theorem constRule_eq_nil : constRule host map inst here = [] ↔ ConstOk map inst := by
  unfold constRule ConstOk
  rcases map.get "const" with _ | v
  · simp
  · by_cases h : v = inst <;> simp [h]

theorem enumRule_eq_nil : enumRule host map inst here = [] ↔ EnumOk map inst := by
  unfold enumRule EnumOk
  rcases map.get "enum" with _ | v
  · simp
  · cases v <;> simp

theorem minRule_eq_nil {bound : Option UInt64} {length : Nat} {violation : UInt64 → Violation} :
    minRule bound length violation = [] ↔ ∀ n, bound = some n → n.toNat ≤ length := by
  unfold minRule
  cases bound <;> simp

theorem maxRule_eq_nil {bound : Option UInt64} {length : Nat} {violation : UInt64 → Violation} :
    maxRule bound length violation = [] ↔ ∀ n, bound = some n → length ≤ n.toNat := by
  unfold maxRule
  cases bound <;> simp

theorem patternRule_eq_nil {pattern text : String} :
    patternRule host pattern text here = [] ↔ PatternOk host.toUnicode pattern text := by
  unfold patternRule PatternOk
  rcases Pattern.parse pattern with e | compiled
  · simp
  · by_cases h : compiled.isMatch (Item.matches host.toUnicode) text <;> simp [h]

theorem formatRule_eq_nil {format text : String} :
    formatRule format text here = [] ↔ FormatOk format text := by
  rw [FormatOk, ← isUuid_iff, ← isDateTime_iff, ← isDate_iff, ← isBase64_iff]
  unfold formatRule
  by_cases huuid : format = "uuid"
  · subst huuid
    cases isUuid text.toList <;> simp
  by_cases htime : format = "date-time"
  · subst htime
    cases isDateTime text.toList <;> simp
  by_cases hdate : format = "date"
  · subst hdate
    cases isDate text.toList <;> simp
  by_cases hbyte : format = "byte"
  · subst hbyte
    cases isBase64 text.toList <;> simp
  simp [huuid, htime, hdate, hbyte]

theorem stringRules_eq_nil {text : String} :
    stringRules host map text here = [] ↔ StringOk host.toUnicode map text := by
  unfold stringRules StringOk LengthOk
  dsimp only
  rw [List.append_eq_nil_iff, List.append_eq_nil_iff, List.append_eq_nil_iff, minRule_eq_nil,
    maxRule_eq_nil]
  refine (and_congr (and_congr_right fun _ => ?_) ?_).trans and_assoc
  · rcases (map.get "pattern").bind Value.asStr with _ | p
    · simp
    · simp [patternRule_eq_nil]
  · rcases (map.get "format").bind Value.asStr with _ | f
    · simp
    · simp [formatRule_eq_nil]

theorem numberRules_eq_nil {value : Binary64} :
    numberRules host map value here = [] ↔ NumberOk map value := by
  unfold numberRules NumberOk
  rw [List.append_eq_nil_iff]
  refine and_congr ?_ ?_
  · rcases (map.get "minimum").bind Value.asF64 with _ | min <;> simp
  · rcases (map.get "maximum").bind Value.asF64 with _ | max <;> simp

theorem requiredRule_eq_nil {object : Map} :
    requiredRule map object here = [] ↔ RequiredOk map object := by
  unfold requiredRule RequiredOk
  rcases map.get "required" with _ | v
  · simp
  · cases v with
    | array required =>
      simp only [List.map_eq_nil_iff, List.filter_eq_nil_iff, List.mem_filterMap, Option.some.injEq,
        Value.array.injEq]
      constructor
      · intro h _ heq name hname
        subst heq
        have := h name ⟨_, hname, rfl⟩
        simpa [Option.isSome_iff_ne_none] using this
      · intro h name hex
        obtain ⟨v, hv, hname⟩ := hex
        cases v with
        | string n =>
          cases hname
          have := h required rfl name hv
          simpa [Option.isSome_iff_ne_none] using this
        | _ => cases hname
    | _ => simp

section Child

variable {child : Value → Value → String → List Violation} {R : Value → Value → Prop}

theorem arrayRules_eq_nil (hchild : ∀ s v p, child s v p = [] ↔ R s v) {items : List Value} :
    arrayRules child map items here = [] ↔ ArrayOk R map items := by
  unfold arrayRules ArrayOk LengthOk
  rw [List.append_eq_nil_iff, List.append_eq_nil_iff, minRule_eq_nil, maxRule_eq_nil]
  refine and_congr_right fun _ => ?_
  rcases map.get "items" with _ | schema
  · simp
  · simp only [List.flatMap_eq_nil_iff, hchild, Option.some.injEq, forall_eq']
    constructor
    · intro h item hitem
      obtain ⟨i, hi, rfl⟩ := List.mem_iff_getElem.mp hitem
      exact h (items[i], i) (List.mem_zipIdx_iff_getElem?.mpr (List.getElem?_eq_getElem hi))
    · intro h p hp
      exact h _ (List.fst_mem_of_mem_zipIdx hp)

theorem memberRule_eq_nil (hchild : ∀ s v p, child s v p = [] ↔ R s v) {name : String}
    {value : Value} : memberRule child map name value here = [] ↔ MemberOk R map name value := by
  unfold memberRule MemberOk listed
  rcases ((map.get "properties").bind Value.asObject).bind (Map.get · name) with _ | schema
  · rcases map.get "additionalProperties" with _ | v
    · simp
    · cases v with
      | bool b =>
        cases b with
        | false => simp
        | true => exact hchild _ _ _
      | _ => exact hchild _ _ _
  · exact hchild _ _ _

theorem objectRules_eq_nil (hchild : ∀ s v p, child s v p = [] ↔ R s v) {object : Map} :
    objectRules child map object here = [] ↔ ObjectOk R map object := by
  unfold objectRules ObjectOk
  rw [List.append_eq_nil_iff, requiredRule_eq_nil, List.flatMap_eq_nil_iff]
  exact and_congr_right fun _ => forall₂_congr fun member _ => memberRule_eq_nil hchild

theorem filter_length_eq_one_iff {α : Type} {p : α → Bool} {l : List α} :
    (l.filter p).length = 1 ↔ ExactlyOne (fun x => p x = true) l := by
  rw [List.length_eq_one_iff]
  constructor
  · intro h
    obtain ⟨x, hx⟩ := h
    obtain ⟨before, after, rfl, hbefore, hpx, hafter⟩ := List.filter_eq_cons_iff.mp hx
    refine ⟨before, x, after, rfl, hpx, fun y hy => ?_⟩
    rcases List.mem_append.mp hy with hy | hy
    · exact hbefore y hy
    · exact List.filter_eq_nil_iff.mp hafter y hy
  · intro h
    obtain ⟨before, x, after, rfl, hpx, hnone⟩ := h
    refine ⟨x, List.filter_eq_cons_iff.mpr ⟨before, after, rfl, fun y hy => ?_, hpx, ?_⟩⟩
    · exact hnone y (List.mem_append_left _ hy)
    · exact List.filter_eq_nil_iff.mpr fun y hy => hnone y (List.mem_append_right _ hy)

theorem oneOfRule_eq_nil (hchild : ∀ s v p, child s v p = [] ↔ R s v) :
    oneOfRule child map inst here = [] ↔ OneOfOk R map inst := by
  unfold oneOfRule OneOfOk
  rcases map.get "oneOf" with _ | v
  · simp
  · cases v with
    | array branches =>
      have hcount := filter_length_eq_one_iff (l := branches)
        (p := fun branch => (child branch inst here).isEmpty)
      simp only [List.isEmpty_iff, hchild] at hcount
      simp [← hcount]
    | _ => simp

theorem kindRules_eq_nil (hchild : ∀ s v p, child s v p = [] ↔ R s v) :
    kindRules host child map inst here = [] ↔ KindOk R host.toUnicode map inst := by
  cases inst with
  | string text => exact stringRules_eq_nil
  | number n => exact numberRules_eq_nil
  | array items => exact arrayRules_eq_nil hchild
  | object object => exact objectRules_eq_nil hchild
  | _ => exact iff_of_true rfl trivial

theorem objectNode_eq_nil (hchild : ∀ s v p, child s v p = [] ↔ R s v) :
    objectNode host child map inst here = [] ↔ ObjectStep R host.toUnicode map inst := by
  refine typed_eq_nil.trans ?_
  simp only [List.append_eq_nil_iff, constRule_eq_nil, enumRule_eq_nil, kindRules_eq_nil hchild,
    oneOfRule_eq_nil hchild]
  constructor
  · intro hand
    obtain ⟨hkeys, htype, ⟨⟨hconst, henum⟩, hkind⟩, hone⟩ := hand
    exact ⟨hkeys, htype, hconst, henum, hkind, hone⟩
  · exact fun h => ⟨h.keys, h.type, ⟨⟨h.const, h.enum⟩, h.kind⟩, h.oneOf⟩

end Child

end Rules

/-! ## The walk -/

theorem target_of_no_ref {root : Value} {map : Map} (h : map.get "$ref" = none) :
    target root (.object map) = some (.object map) := by
  unfold target
  rw [show (Value.object map).get "$ref" = none from h]
  rfl

theorem target_of_not_isAlias {root schema : Value} (h : ¬ IsAlias schema) :
    target root schema = some schema := by
  have hnone : (schema.get "$ref").bind Value.asStr = none := by
    rw [Option.bind_eq_none_iff]
    intro v hv
    cases v with
    | string reference => exact absurd ⟨reference, hv⟩ h
    | _ => rfl
  unfold target
  rw [hnone]

theorem target_of_string {root schema : Value} {reference : String}
    (h : schema.get "$ref" = some (.string reference)) :
    target root schema = (stripPrefix "#/$defs/" reference).bind (definition root) := by
  unfold target
  rw [h]
  rfl

theorem target_of_ref {root : Value} {map : Map} {name : String}
    (h : map.get "$ref" = some (.string ("#/$defs/" ++ name))) :
    target root (.object map) = definition root name := by
  have href : (Value.object map).get "$ref" = some (.string ("#/$defs/" ++ name)) := h
  rw [target_of_string href, stripPrefix_eq_some_iff.mpr rfl]
  rfl

section Walk

variable (host : Host) (root : Value)

/-- The verdict of the walk, with some room below. -/
def accepts (room : Nat) (schema inst : Value) : Prop := node host root room schema inst "" = []

instance (room : Nat) (schema inst : Value) : Decidable (accepts host root room schema inst) :=
  inferInstanceAs (Decidable (_ = _))

variable {host root} {room : Nat} {schema inst : Value}

theorem toOption_resolve {here : String} :
    (resolve schema root here).toOption = target root schema := by
  unfold resolve target
  rcases (schema.get "$ref").bind Value.asStr with _ | reference
  · rfl
  · dsimp only
    rcases stripPrefix "#/$defs/" reference with _ | name
    · rfl
    · dsimp only [Option.bind_some]
      rcases definition root name with _ | t <;> rfl

/-- The equation of one node, with any verdict that its children have. -/
theorem node_eq_nil_iff_step {R : Value → Value → Prop}
    (hchild : ∀ s v p, node host root room s v p = [] ↔ R s v) {here : String} :
    node host root (room + 1) schema inst here = [] ↔ Step host.toUnicode root R schema inst := by
  cases schema with
  | bool b => cases b <;> simp [node, Step]
  | object members =>
    have htarget : (resolve (.object members) root here).toOption = target root (.object members) :=
      toOption_resolve
    unfold node Step
    dsimp only
    rw [← htarget]
    rcases resolve (.object members) root here with violation | t
    · simp [Except.toOption]
    · cases t with
      | object map => exact objectNode_eq_nil hchild
      | _ => simp [Except.toOption]
  | _ => simp [node, Step]

/-- Where a violation is reported does not change whether there is one. -/
theorem node_eq_nil_iff {here : String} :
    node host root room schema inst here = [] ↔ accepts host root room schema inst := by
  induction room generalizing schema inst here with
  | zero => simp [node, accepts]
  | succ room ih =>
    rw [accepts, node_eq_nil_iff_step fun s v p => ih, node_eq_nil_iff_step fun s v p => ih]

theorem not_accepts_zero : ¬ accepts host root 0 schema inst := by
  simp [accepts, node]

theorem accepts_succ_iff :
    accepts host root (room + 1) schema inst ↔
      Step host.toUnicode root (accepts host root room) schema inst :=
  node_eq_nil_iff_step fun _ _ _ => node_eq_nil_iff

theorem report_eq_ok_iff {out : List Violation} : report out = .ok () ↔ out = [] := by
  unfold report
  cases out <;> simp

theorem validate_eq_ok_iff :
    validate host schema inst = .ok () ↔ accepts host schema (MAX_DEPTH + 1) schema inst :=
  report_eq_ok_iff

theorem validateDef_eq_ok_iff {name : String} :
    validateDef host root name inst = .ok () ↔
      ∃ schema, definition root name = some schema ∧
        accepts host root (MAX_DEPTH + 1) schema inst := by
  unfold validateDef
  rcases definition root name with _ | schema
  · simp
  · simp [report_eq_ok_iff, accepts]

end Walk

/-! ## A verdict depends on the children alone -/

section Congr

variable {u : Unicode} {root : Value} {R R' : Value → Value → Prop} {map : Map}
  {schema inst : Value}

theorem MemberOk.congr {name : String} {value : Value}
    (h : ∀ s, memberSchema map name = some s → (R s value → R' s value))
    (hok : MemberOk R map name value) : MemberOk R' map name value := by
  unfold MemberOk at hok ⊢
  unfold memberSchema at h
  generalize listed map name = own at h hok ⊢
  generalize map.get "additionalProperties" = other at h hok ⊢
  rcases own with _ | s
  · rcases other with _ | v
    · trivial
    · cases v with
      | bool b =>
        cases b with
        | false => exact hok
        | true => exact h _ rfl hok
      | _ => exact h _ rfl hok
  · exact h _ rfl hok

/-- A node passes only if the members and items it applies schemas to pass. -/
theorem KindOk.child (hok : KindOk R u map inst) {s v : Value}
    (hp : (s, v) ∈ kindApplications map inst) : R s v := by
  unfold kindApplications at hp
  cases inst with
  | array items =>
    dsimp only at hp
    split at hp
    · next schema hschema =>
      obtain ⟨item, hitem, heq⟩ := List.mem_map.mp hp
      cases heq
      exact hok.2 _ hschema v hitem
    · cases hp
  | object object =>
    obtain ⟨member, hmember, hpair⟩ := List.mem_filterMap.mp hp
    obtain ⟨schema, hschema, heq⟩ := Option.map_eq_some_iff.mp hpair
    cases heq
    have hmemberOk := hok.2 member hmember
    unfold MemberOk at hmemberOk
    unfold memberSchema at hschema
    generalize listed map member.1 = own at hmemberOk hschema
    generalize map.get "additionalProperties" = other at hmemberOk hschema
    rcases own with _ | t
    · rcases other with _ | t
      · cases hschema
      · cases t with
        | bool b =>
          cases b with
          | false => cases hschema
          | true =>
            cases hschema
            exact hmemberOk
        | _ =>
          cases hschema
          exact hmemberOk
    · cases hschema
      exact hmemberOk
  | _ => cases hp

theorem KindOk.congr (h : ∀ p ∈ kindApplications map inst, R p.1 p.2 → R' p.1 p.2)
    (hok : KindOk R u map inst) : KindOk R' u map inst := by
  cases inst with
  | array items =>
    refine ⟨hok.1, fun s hs item hitem => h (s, item) ?_ (hok.2 s hs item hitem)⟩
    unfold kindApplications
    dsimp only
    rw [hs]
    exact List.mem_map_of_mem hitem
  | object object =>
    refine ⟨hok.1, fun member hmember => (hok.2 member hmember).congr fun s hs => ?_⟩
    exact h (s, member.2) (List.mem_filterMap.mpr ⟨member, hmember, by rw [hs]; rfl⟩)
  | _ => exact hok

theorem OneOfOk.congr (h : ∀ p ∈ oneOfApplications map inst, R p.1 p.2 ↔ R' p.1 p.2)
    (hok : OneOfOk R map inst) : OneOfOk R' map inst := by
  intro branches hbranches
  obtain ⟨before, b, after, rfl, hb, hnone⟩ := hok branches hbranches
  have hmem : ∀ x ∈ before ++ b :: after, (x, inst) ∈ oneOfApplications map inst := by
    intro x hx
    unfold oneOfApplications
    rw [hbranches]
    exact List.mem_map_of_mem hx
  refine ⟨before, b, after, rfl, (h (b, inst) (hmem b (by simp))).mp hb, fun y hy => ?_⟩
  have hy' : y ∈ before ++ b :: after := by
    rcases List.mem_append.mp hy with hy | hy
    · exact List.mem_append_left _ hy
    · exact List.mem_append_right _ (List.mem_cons_of_mem _ hy)
  exact fun hR => hnone y hy ((h (y, inst) (hmem y hy')).mpr hR)

theorem ObjectStep.congr
    (h : typeHolds map (kindOf inst) = true →
      ∀ p ∈ applications map inst, R p.1 p.2 ↔ R' p.1 p.2)
    (hok : ObjectStep R u map inst) : ObjectStep R' u map inst where
  keys := hok.keys
  type := hok.type
  const := hok.const
  enum := hok.enum
  kind := hok.kind.congr fun p hp => (h hok.type p (List.mem_append_left _ hp)).mp
  oneOf := hok.oneOf.congr fun p hp => h hok.type p (List.mem_append_right _ hp)

theorem step_congr (h : ∀ p ∈ applied root schema inst, R p.1 p.2 ↔ R' p.1 p.2) :
    Step u root R schema inst ↔ Step u root R' schema inst := by
  cases schema with
  | object members =>
    unfold Step
    unfold applied at h
    dsimp only at h ⊢
    rcases htarget : target root (.object members) with _ | t
    · exact Iff.rfl
    · rw [htarget] at h
      cases t with
      | object map =>
        dsimp only at h ⊢
        constructor
        · refine ObjectStep.congr fun htype p hp => h p ?_
          rwa [if_pos htype]
        · refine ObjectStep.congr fun htype p hp => (h p ?_).symm
          rwa [if_pos htype]
      | _ => exact Iff.rfl
  | _ => exact Iff.rfl

end Congr

/-! ## Bounded chains of applications -/

/-- No chain of nested applications from here is longer than `n`. -/
def Within (root : Value) : Nat → Value → Value → Prop
  | 0, schema, inst => applied root schema inst = []
  | n + 1, schema, inst => ∀ p ∈ applied root schema inst, Within root n p.1 p.2

instance decidableWithin (root : Value) :
    (n : Nat) → (schema inst : Value) → Decidable (Within root n schema inst)
  | 0, _, _ => inferInstanceAs (Decidable (_ = _))
  | n + 1, schema, inst =>
    have := decidableWithin root n
    inferInstanceAs (Decidable (∀ p ∈ applied root schema inst, Within root n p.1 p.2))

section Bounded

variable {host : Host} {root schema inst : Value} {n room room' : Nat}

theorem Within.child (h : Within root n schema inst) {p : Value × Value}
    (hp : p ∈ applied root schema inst) : ∃ m, n = m + 1 ∧ Within root m p.1 p.2 := by
  cases n with
  | zero =>
    rw [show applied root schema inst = [] from h] at hp
    cases hp
  | succ n => exact ⟨n, rfl, h p hp⟩

/-- Chains start with what the node applies. -/
theorem Within.congr {schema' inst' : Value} (h : Within root n schema inst)
    (heq : applied root schema inst = applied root schema' inst') :
    Within root n schema' inst' := by
  cases n with
  | zero => exact heq.symm.trans h
  | succ n => exact fun p hp => h p (by rwa [heq])

/-- With room for the longest chain, more room changes nothing. -/
theorem accepts_of_within (h : Within root n schema inst) (hroom : n < room) (hroom' : n < room') :
    accepts host root room schema inst ↔ accepts host root room' schema inst := by
  induction n generalizing schema inst room room' with
  | zero =>
    obtain ⟨r, rfl⟩ := Nat.exists_eq_add_of_lt hroom
    obtain ⟨r', rfl⟩ := Nat.exists_eq_add_of_lt hroom'
    rw [accepts_succ_iff, accepts_succ_iff]
    refine step_congr fun p hp => ?_
    obtain ⟨m, hm, -⟩ := h.child hp
    cases hm
  | succ n ih =>
    obtain ⟨r, rfl⟩ := Nat.exists_eq_add_of_lt hroom
    obtain ⟨r', rfl⟩ := Nat.exists_eq_add_of_lt hroom'
    rw [accepts_succ_iff, accepts_succ_iff]
    exact step_congr fun p hp => ih (h p hp) (by omega) (by omega)

end Bounded

end Validation
end IndieWorker
