import IndieWorker.Validation.Value
import Mathlib.Data.List.Forall2

/-!
# JSON values as JavaScript holds them

What `JSON.parse` makes: every number is a double, and the members of an object
stand in the order in which `Object.keys` lists them.  Arrays and strings have
their elements and their length for properties.  `Reads` relates such a value to
the `serde_json` value of the same document; it leaves the order of the members
free and forgets how a number was written.
-/

namespace IndieWorker
namespace TypeScript

open Validation

inductive JsValue where
  | null
  | boolean (b : Bool)
  | number (x : Binary64)
  | string (s : String)
  | array (items : List JsValue)
  | object (members : List (String × JsValue))

/-! ## Properties -/

/-- The properties of `Object.prototype`, which every object inherits. -/
def INHERITED : List String :=
  ["constructor", "__defineGetter__", "__defineSetter__", "hasOwnProperty", "__lookupGetter__",
    "__lookupSetter__", "isPrototypeOf", "propertyIsEnumerable", "toString", "valueOf",
    "__proto__", "toLocaleString"]

/-- What `Array.prototype` adds. -/
def ARRAY_INHERITED : List String :=
  ["at", "concat", "copyWithin", "entries", "every", "fill", "filter", "find", "findIndex",
    "findLast", "findLastIndex", "flat", "flatMap", "forEach", "includes", "indexOf", "join",
    "keys", "lastIndexOf", "map", "pop", "push", "reduce", "reduceRight", "reverse", "shift",
    "slice", "some", "sort", "splice", "toReversed", "toSorted", "toSpliced", "unshift",
    "values", "with"]

/-- What `String.prototype` adds. -/
def STRING_INHERITED : List String :=
  ["anchor", "at", "big", "blink", "bold", "charAt", "charCodeAt", "codePointAt", "concat",
    "endsWith", "fixed", "fontcolor", "fontsize", "includes", "indexOf", "isWellFormed",
    "italics", "lastIndexOf", "link", "localeCompare", "match", "matchAll", "normalize",
    "padEnd", "padStart", "repeat", "replace", "replaceAll", "search", "slice", "small",
    "split", "startsWith", "strike", "sub", "substr", "substring", "sup", "toLocaleLowerCase",
    "toLocaleUpperCase", "toLowerCase", "toUpperCase", "toWellFormed", "trim", "trimEnd",
    "trimLeft", "trimRight", "trimStart"]

/-- What `Number.prototype` adds. -/
def NUMBER_INHERITED : List String := ["toExponential", "toFixed", "toPrecision"]

theorem sizeOf_lt_of_mem_items {items : List JsValue} {v : JsValue} (h : v ∈ items) :
    sizeOf v < sizeOf (JsValue.array items) := by
  have hlist := List.sizeOf_lt_of_mem h
  rw [JsValue.array.sizeOf_spec]
  omega

theorem sizeOf_lt_of_mem_members {members : List (String × JsValue)} {member : String × JsValue}
    (h : member ∈ members) : sizeOf member.2 < sizeOf (JsValue.object members) := by
  have hlist := List.sizeOf_lt_of_mem h
  have hpair : sizeOf member = 1 + sizeOf member.1 + sizeOf member.2 := rfl
  rw [JsValue.object.sizeOf_spec]
  omega

namespace JsValue

/-- The code units of a text.  Half of a pair is no character; U+FFFD stands for it,
since only the length of a text of one unit is ever looked at. -/
def units (s : String) : List Char :=
  s.toList.flatMap fun c => if c.toNat < 0x10000 then [c] else ['\uFFFD', '\uFFFD']

/-- The elements under their indices. -/
def indexed (elements : List JsValue) : List (String × JsValue) :=
  elements.zipIdx.map fun (element, i) => (toString i, element)

/-- A length, which in JavaScript is below `2 ^ 53`. -/
def size (n : ℕ) : JsValue := .number (Number.posInt (UInt64.ofNat n)).asF64

/-- The elements of an array or a string. -/
def elements : JsValue → List JsValue
  | .array items => items
  | .string s => (units s).map fun c => .string (String.singleton c)
  | _ => []

/-- The own properties. -/
def own : JsValue → List (String × JsValue)
  | .object members => members
  | .array items => indexed items ++ [("length", size items.length)]
  | .string s => indexed (elements (.string s)) ++ [("length", size (units s).length)]
  | _ => []

/-- An own property under a name. -/
def property (v : JsValue) (key : String) : Option JsValue := v.own.lookup key

/-- There is a property of this name on the prototype. -/
def inherits (v : JsValue) (key : String) : Bool :=
  INHERITED.contains key ||
    match v with
    | .array _ => ARRAY_INHERITED.contains key
    | .string _ => STRING_INHERITED.contains key
    | .number _ => NUMBER_INHERITED.contains key
    | _ => false

/-- `Object.keys`. -/
def keys : JsValue → List String
  | .object members => members.map Prod.fst
  | v => (indexed v.elements).map Prod.fst

/-- The values that a condition takes for false. -/
def isFalsy : JsValue → Bool
  | .null => true
  | .boolean b => !b
  | .number x => x.value == 0
  | .string s => s.isEmpty
  | _ => false

/-- The name of an element has digits only, and the length is the other property of
arrays and strings. -/
theorem property_of_word {v : JsValue} {key : String} (hlength : key ≠ "length")
    (hword : key.toList.all Char.isDigit = false) {w : JsValue} (h : v.property key = some w) :
    ∃ members, v = .object members ∧ (key, w) ∈ members := by
  have hmem : (key, w) ∈ v.own := by
    obtain ⟨before, after, heq, -⟩ := List.lookup_eq_some_iff.mp h
    rw [heq]
    exact List.mem_append_right _ List.mem_cons_self
  have hindex : ∀ (elements : List JsValue) (n : Nat),
      (key, w) ∉ indexed elements ++ [("length", size n)] := by
    intro elements n hin
    rcases List.mem_append.mp hin with hin | hin
    · obtain ⟨⟨element, i⟩, -, heq⟩ := List.mem_map.mp hin
      have hdigits : (toString i).toList = Nat.toDigits 10 i := Nat.toList_repr
      rw [← (Prod.mk.inj heq).1, hdigits, List.all_eq_false] at hword
      obtain ⟨c, hc, hdigit⟩ := hword
      exact hdigit (Nat.isDigit_of_mem_toDigits (by decide) (by decide) hc)
    · exact hlength (Prod.mk.inj (List.mem_singleton.mp hin)).1
  cases v with
  | object members => exact ⟨members, rfl, hmem⟩
  | array items => exact absurd hmem (hindex _ _)
  | string s => exact absurd hmem (hindex _ _)
  | _ => cases hmem

end JsValue

/-! ## One JSON value in both languages -/

/-- The two hold the same JSON value.  No text or array of JavaScript is as long
as `2 ^ 53`. -/
inductive Reads : Value → JsValue → Prop
  | null : Reads .null .null
  | bool (b : Bool) : Reads (.bool b) (.boolean b)
  | number (n : Number) : Reads (.number n) (.number n.asF64)
  | string {s : String} : s.toList.length < 2 ^ 53 → Reads (.string s) (.string s)
  | array {items : List Value} {items' : List JsValue} : items.length = items'.length →
      items.length < 2 ^ 53 → (∀ p ∈ items.zip items', Reads p.1 p.2) →
      Reads (.array items) (.array items')
  | object {members : Map} {members' : List (String × JsValue)} :
      (members.map Prod.fst).Nodup → (members'.map Prod.fst).Nodup →
      (∀ key, key ∈ members.map Prod.fst ↔ key ∈ members'.map Prod.fst) →
      (∀ key v v', (key, v) ∈ members → (key, v') ∈ members' → Reads v v') →
      Reads (.object members) (.object members')

section Reads

variable {v : Value} {v' : JsValue}

theorem Reads.array_iff {items : List Value} :
    Reads (.array items) v' ↔
      ∃ items', v' = .array items' ∧ items.length < 2 ^ 53 ∧ List.Forall₂ Reads items items' := by
  constructor
  · intro h
    cases h with
    | array hlen hlt hzip =>
      exact ⟨_, rfl, hlt, List.forall₂_iff_zip.mpr ⟨hlen, fun hp => hzip _ hp⟩⟩
  · intro hex
    obtain ⟨items', rfl, hlt, hall⟩ := hex
    obtain ⟨hlen, hzip⟩ := List.forall₂_iff_zip.mp hall
    exact .array hlen hlt fun p hp => hzip hp

/-- Objects whose members stand in the same order. -/
theorem Reads.object_of_forall₂ {members : Map} {members' : List (String × JsValue)}
    (hnodup : (members.map Prod.fst).Nodup)
    (h : List.Forall₂ (fun m m' => m.1 = m'.1 ∧ Reads m.2 m'.2) members members') :
    Reads (.object members) (.object members') := by
  have hkeys : ∀ (ms : Map) (ms' : List (String × JsValue)),
      List.Forall₂ (fun m m' => m.1 = m'.1 ∧ Reads m.2 m'.2) ms ms' →
      ms.map Prod.fst = ms'.map Prod.fst := by
    intro ms ms' h
    induction h with
    | nil => rfl
    | cons hm _ ih => rw [List.map_cons, List.map_cons, hm.1, ih]
  have heq := hkeys _ _ h
  refine .object hnodup (heq ▸ hnodup) (fun key => by rw [heq]) ?_
  clear heq
  induction h with
  | nil => exact nofun
  | @cons m m' ms ms' hm hrest ih =>
    obtain ⟨hfresh, hnodup⟩ := List.nodup_cons.mp hnodup
    intro key v v' hv hv'
    rcases List.mem_cons.mp hv with rfl | hv
    · rcases List.mem_cons.mp hv' with rfl | hv'
      · exact hm.2
      · rw [hkeys _ _ hrest] at hfresh
        exact absurd (List.mem_map_of_mem (f := Prod.fst) hv') hfresh
    · rcases List.mem_cons.mp hv' with rfl | hv'
      · rw [hm.1] at hfresh
        exact absurd (List.mem_map_of_mem (f := Prod.fst) hv) hfresh
      · exact ih hnodup key v v' hv hv'

/-- The order of the members does not matter. -/
theorem Reads.perm {members : Map} {members' members'' : List (String × JsValue)}
    (h : Reads (.object members) (.object members')) (hperm : members'.Perm members'') :
    Reads (.object members) (.object members'') := by
  have hkeys' : (members'.map Prod.fst).Perm (members''.map Prod.fst) := hperm.map Prod.fst
  cases h with
  | object hnodup hnodup' hkeys hmembers =>
    refine .object hnodup (hkeys'.nodup hnodup') (fun key => ?_) fun key v v' hv hv' => ?_
    · rw [hkeys key, hkeys'.mem_iff]
    · exact hmembers key v v' hv (hperm.mem_iff.mpr hv')

/-- A keyword of an object is there in both languages or in neither. -/
theorem Reads.keyword {members : Map} (h : Reads (.object members) v') (key : String) :
    (members.get key = none ∧ v'.property key = none) ∨
      ∃ w w', members.get key = some w ∧ v'.property key = some w' ∧ Reads w w' := by
  cases h with
  | @object _ members' hnodup hnodup' hkeys hmembers =>
    show (members.lookup key = none ∧ members'.lookup key = none) ∨
      ∃ w w', members.lookup key = some w ∧ members'.lookup key = some w' ∧ Reads w w'
    rcases hv : members.lookup key with _ | w
    · rcases hv' : members'.lookup key with _ | w'
      · exact Or.inl ⟨rfl, rfl⟩
      · have hkey := List.mem_map_of_mem (f := Prod.fst) ((lookup_eq_some_iff hnodup').mp hv')
        obtain ⟨⟨k, w⟩, hmem, rfl⟩ := List.mem_map.mp ((hkeys key).mpr hkey)
        rw [(lookup_eq_some_iff hnodup).mpr hmem] at hv
        cases hv
    · have hmem := (lookup_eq_some_iff hnodup).mp hv
      obtain ⟨⟨k, w'⟩, hmem', rfl⟩ := List.mem_map.mp ((hkeys key).mp (List.mem_map_of_mem hmem))
      have hv' := (lookup_eq_some_iff hnodup').mpr hmem'
      exact Or.inr ⟨w, w', rfl, hv', hmembers _ _ _ hmem hmem'⟩

end Reads

mutual

/-- What JavaScript makes of a value, with the members in the same order. -/
def JsValue.ofValue : Value → JsValue
  | .null => .null
  | .bool b => .boolean b
  | .number n => .number n.asF64
  | .string s => .string s
  | .array items => .array (ofItems items)
  | .object members => .object (ofMembers members)

def JsValue.ofItems : List Value → List JsValue
  | [] => []
  | item :: items => ofValue item :: ofItems items

def JsValue.ofMembers : List (String × Value) → List (String × JsValue)
  | [] => []
  | (key, value) :: members => (key, ofValue value) :: ofMembers members

end

mutual

/-- No key stands twice in an object, and no text or array is too long. -/
def isTidy : Value → Bool
  | .string s => decide (s.toList.length < 2 ^ 53)
  | .array items => decide (items.length < 2 ^ 53) && areTidyItems items
  | .object members => decide (members.map Prod.fst).Nodup && areTidyMembers members
  | _ => true

def areTidyItems : List Value → Bool
  | [] => true
  | item :: items => isTidy item && areTidyItems items

def areTidyMembers : List (String × Value) → Bool
  | [] => true
  | (_, value) :: members => isTidy value && areTidyMembers members

end

mutual

theorem reads_ofValue : (v : Value) → isTidy v = true → Reads v (.ofValue v)
  | .null, _ => .null
  | .bool b, _ => .bool b
  | .number n, _ => .number n
  | .string _, h => .string (of_decide_eq_true h)
  | .array items, h => by
    obtain ⟨hlength, hitems⟩ := Bool.and_eq_true_iff.mp h
    exact Reads.array_iff.mpr ⟨_, rfl, of_decide_eq_true hlength, reads_ofItems items hitems⟩
  | .object members, h => by
    obtain ⟨hnodup, hmembers⟩ := Bool.and_eq_true_iff.mp h
    exact .object_of_forall₂ (of_decide_eq_true hnodup) (reads_ofMembers members hmembers)

theorem reads_ofItems : (items : List Value) → areTidyItems items = true →
    List.Forall₂ Reads items (JsValue.ofItems items)
  | [], _ => .nil
  | item :: items, h => by
    obtain ⟨hitem, hitems⟩ := Bool.and_eq_true_iff.mp h
    exact .cons (reads_ofValue item hitem) (reads_ofItems items hitems)

theorem reads_ofMembers : (members : List (String × Value)) → areTidyMembers members = true →
    List.Forall₂ (fun m m' => m.1 = m'.1 ∧ Reads m.2 m'.2) members (JsValue.ofMembers members)
  | [], _ => .nil
  | (_, value) :: members, h => by
    obtain ⟨hvalue, hmembers⟩ := Bool.and_eq_true_iff.mp h
    exact .cons ⟨rfl, reads_ofValue value hvalue⟩ (reads_ofMembers members hmembers)

end

/-- A JSON value as each side holds it. -/
structure Json where
  value : Value
  js : JsValue
  reads : Reads value js

def Json.ofValue (v : Value) (h : isTidy v = true) : Json := ⟨v, .ofValue v, reads_ofValue v h⟩

end TypeScript
end IndieWorker
