import IndieWorker.Validation.Formats
import IndieWorker.Validation.Pattern
import IndieWorker.Validation.Value

/-!
# The JSON Schema validator

`src/validation/json_schema.rs`.  The source pushes violations onto a list; here
each function returns the violations it pushes, in order.  The walk counts its
depth up to `MAX_DEPTH`; here `room` counts down what is left of it, so that a
node at depth `d` has room `MAX_DEPTH + 1 - d`.
-/

namespace IndieWorker
namespace Validation

/-- What the validator takes from outside: the character table, and how values
and doubles are printed in a message. -/
structure Host extends Unicode where
  display : Value → String
  displayF64 : Binary64 → String

/-- A host that knows the ASCII table only, and prints no value. -/
def Host.ascii : Host where
  isAlphanumeric := Char.isAlphanum
  below128 := fun _ _ => rfl
  display := fun _ => ""
  displayF64 := fun _ => ""

/-- One reason an instance failed.  Pointers are RFC 6901 JSON pointers. -/
structure Violation where
  pointer : String
  rule : String
  message : String
  deriving DecidableEq, Repr

def Violation.new (pointer rule message : String) : Violation :=
  ⟨if pointer.isEmpty then "/" else pointer, rule, message⟩

def ANNOTATIONS : List String :=
  ["title", "description", "$comment", "default", "examples", "deprecated", "$schema", "$id",
    "$defs"]

def KEYWORDS : List String :=
  ["$ref", "type", "required", "properties", "additionalProperties", "enum", "const", "items",
    "minItems", "maxItems", "minLength", "maxLength", "minimum", "maximum", "pattern", "oneOf",
    "format"]

def MAX_DEPTH : Nat := 64

/-- `str::strip_prefix`. -/
def stripPrefix (front text : String) : Option String :=
  if front.toList.isPrefixOf text.toList then
    some (String.ofList (text.toList.drop front.toList.length))
  else none

theorem stripPrefix_eq_some_iff {front text rest : String} :
    stripPrefix front text = some rest ↔ text = front ++ rest := by
  unfold stripPrefix
  rw [← String.toList_inj, String.toList_append]
  constructor
  · intro h
    split at h
    · next hfront =>
      obtain ⟨tail, htail⟩ := List.isPrefixOf_iff_prefix.mp hfront
      cases h
      rw [← htail, List.drop_left, String.toList_ofList]
    · cases h
  · intro h
    rw [h, if_pos (List.isPrefixOf_iff_prefix.mpr (List.prefix_append _ _)), List.drop_left,
      String.ofList_toList]

def isSupportedKey (key : String) : Bool :=
  KEYWORDS.contains key || ANNOTATIONS.contains key || (stripPrefix "x-ores-" key).isSome

def kindOf : Value → String
  | .null => "null"
  | .bool _ => "boolean"
  | .number n => if n.isF64 && n.asF64.value.den != 1 then "number" else "integer"
  | .string _ => "string"
  | .array _ => "array"
  | .object _ => "object"

def typeMatches (expected actual : String) : Bool :=
  expected == actual || (expected == "number" && actual == "integer")

/-- The definition `name` of a document. -/
def definition (root : Value) (name : String) : Option Value :=
  (root.get "$defs").bind (Value.get · name)

/-- One hop through a reference. -/
def resolve (schema root : Value) (here : String) : Except Violation Value :=
  match (schema.get "$ref").bind Value.asStr with
  | none => .ok schema
  | some reference =>
    match stripPrefix "#/$defs/" reference with
    | none =>
      .error (.new here "unsupported-ref"
        ("only #/$defs/<Name> references are supported, got " ++ reference))
    | some name =>
      match definition root name with
      | some target => .ok target
      | none => .error (.new here "unknown-definition" ("$ref points at missing $defs/" ++ name))

def escapePointer (token : String) : String :=
  String.ofList ((token.toList.flatMap fun c => if c = '~' then ['~', '0'] else [c]).flatMap
    fun c => if c = '/' then ['~', '1'] else [c])

def memberPointer (here name : String) : String := here ++ "/" ++ escapePointer name

def itemPointer (here : String) (i : Nat) : String := here ++ "/" ++ toString i

section Rules

variable (host : Host)

def unsupportedKeywords (map : Map) (here : String) : List Violation :=
  (map.keys.filter fun key => !isSupportedKey key).map fun key =>
    .new here "unsupported-keyword" (key ++ " is outside the supported subset")

/-- The violation of `type` that ends the node, if there is one. -/
def typeRule (map : Map) (actual here : String) : Option Violation :=
  match map.get "type" with
  | none => none
  | some expected =>
    let mismatch :=
      Violation.new here "type" ("expected " ++ host.display expected ++ ", got " ++ actual)
    match expected with
    | .string t => if typeMatches t actual then none else some mismatch
    | .array list =>
      if (list.filterMap Value.asStr).any (typeMatches · actual) then none else some mismatch
    | _ => some (.new here "malformed-schema" "type must be a string or a list")

def constRule (map : Map) (inst : Value) (here : String) : List Violation :=
  match map.get "const" with
  | some expected =>
    if expected ≠ inst then [.new here "const" ("expected " ++ host.display expected)] else []
  | none => []

def enumRule (map : Map) (inst : Value) (here : String) : List Violation :=
  match map.get "enum" with
  | some (.array options) =>
    if options.any fun o => decide (o = inst) then []
    else
      [.new here "enum"
        (host.display inst ++ " is not one of " ++ host.display (.array options))]
  | _ => []

def formatRule (format text here : String) : List Violation :=
  let ok :=
    if format = "uuid" then some (isUuid text.toList)
    else if format = "date-time" then some (isDateTime text.toList)
    else if format = "date" then some (isDate text.toList)
    else if format = "byte" then some (isBase64 text.toList)
    else none
  match ok with
  | none => [.new here "unsupported-format" (format ++ " is outside the supported subset")]
  | some true => []
  | some false => [.new here "format" ("not a valid " ++ format)]

def patternRule (pattern text here : String) : List Violation :=
  match Pattern.parse pattern with
  | .ok compiled =>
    if compiled.isMatch (Item.matches host.toUnicode) text then []
    else [.new here "pattern" ("does not match " ++ pattern)]
  | .error reason => [.new here "unsupported-pattern" (pattern ++ ": " ++ reason)]

/-- `minLength` and `minItems`: a length that is below the bound. -/
def minRule (bound : Option UInt64) (length : Nat) (violation : UInt64 → Violation) :
    List Violation :=
  match bound with
  | some min => if length < min.toNat then [violation min] else []
  | none => []

/-- `maxLength` and `maxItems`: a length that is above the bound. -/
def maxRule (bound : Option UInt64) (length : Nat) (violation : UInt64 → Violation) :
    List Violation :=
  match bound with
  | some max => if length > max.toNat then [violation max] else []
  | none => []

def stringRules (map : Map) (text here : String) : List Violation :=
  let len := text.toList.length
  minRule ((map.get "minLength").bind Value.asU64) len
      (fun min => .new here "min-length" ("shorter than " ++ toString min)) ++
    maxRule ((map.get "maxLength").bind Value.asU64) len
      (fun max => .new here "max-length" ("longer than " ++ toString max)) ++
    (match (map.get "pattern").bind Value.asStr with
      | some pattern => patternRule host pattern text here
      | none => []) ++
    match (map.get "format").bind Value.asStr with
    | some format => formatRule format text here
    | none => []

def numberRules (map : Map) (value : Binary64) (here : String) : List Violation :=
  (match (map.get "minimum").bind Value.asF64 with
    | some min =>
      if value.value < min.value then
        [.new here "minimum" ("below " ++ host.displayF64 min)]
      else []
    | none => []) ++
  match (map.get "maximum").bind Value.asF64 with
  | some max =>
    if value.value > max.value then
      [.new here "maximum" ("above " ++ host.displayF64 max)]
    else []
  | none => []

/-! The functions below take the walk over a child, one level down, as `child`. -/

variable (child : Value → Value → String → List Violation)

def arrayRules (map : Map) (items : List Value) (here : String) : List Violation :=
  minRule ((map.get "minItems").bind Value.asU64) items.length
      (fun min => .new here "min-items" ("fewer than " ++ toString min ++ " items")) ++
    maxRule ((map.get "maxItems").bind Value.asU64) items.length
      (fun max => .new here "max-items" ("more than " ++ toString max ++ " items")) ++
    match map.get "items" with
    | some itemSchema =>
      items.zipIdx.flatMap fun (item, i) => child itemSchema item (itemPointer here i)
    | none => []

def requiredRule (map object : Map) (here : String) : List Violation :=
  match map.get "required" with
  | some (.array required) =>
    ((required.filterMap Value.asStr).filter fun name => (object.get name).isNone).map fun name =>
      .new (memberPointer here name) "required" (name ++ " is required")
  | _ => []

/-- One member: against its own schema if it is listed, else against
`additionalProperties`. -/
def memberRule (map : Map) (name : String) (value : Value) (here : String) : List Violation :=
  let pointer := memberPointer here name
  match ((map.get "properties").bind Value.asObject).bind (Map.get · name) with
  | some childSchema => child childSchema value pointer
  | none =>
    match map.get "additionalProperties" with
    | some (.bool false) =>
      [.new pointer "additional-properties" (name ++ " is not an allowed property")]
    | some other => child other value pointer
    | none => []

def objectRules (map object : Map) (here : String) : List Violation :=
  requiredRule map object here ++
    object.flatMap fun (name, value) => memberRule child map name value here

def oneOfRule (map : Map) (inst : Value) (here : String) : List Violation :=
  match map.get "oneOf" with
  | some (.array branches) =>
    let matched := branches.filter fun branch => (child branch inst here).isEmpty
    if matched.length ≠ 1 then
      [.new here "one-of"
        ("expected exactly one of " ++ toString branches.length ++ " branches to match, " ++
          toString matched.length ++ " did")]
    else []
  | _ => []

/-- The rules for the kind of the instance. -/
def kindRules (map : Map) (inst : Value) (here : String) : List Violation :=
  match inst with
  | .string text => stringRules host map text here
  | .number n => numberRules host map n.asF64 here
  | .array items => arrayRules child map items here
  | .object object => objectRules child map object here
  | _ => []

/-- A node whose schema is the object `map`. -/
def objectNode (map : Map) (inst : Value) (here : String) : List Violation :=
  unsupportedKeywords map here ++
    match typeRule host map (kindOf inst) here with
    | some violation => [violation]
    | none =>
      constRule host map inst here ++ enumRule host map inst here ++
        kindRules host child map inst here ++ oneOfRule child map inst here

end Rules

/-- The violations of `inst` against `schema`, with references resolved in `root`. -/
def node (host : Host) (root : Value) : Nat → Value → Value → String → List Violation
  | 0, _, _, here => [.new here "depth" "schema nesting is too deep"]
  | room + 1, schema, inst, here =>
    match schema with
    | .bool true => []
    | .bool false => [.new here "false-schema" "nothing validates here"]
    | .object _ =>
      match resolve schema root here with
      | .error violation => [violation]
      | .ok (.object map) => objectNode host (node host root room) map inst here
      | .ok _ => [.new here "malformed-schema" "resolved schema is not an object"]
    | _ => [.new here "malformed-schema" "schema must be an object or a boolean"]

def report (out : List Violation) : Except (List Violation) Unit :=
  if out.isEmpty then .ok () else .error out

/-- Validate `inst` against `schema`, resolving references inside `schema`. -/
def validate (host : Host) (schema inst : Value) : Except (List Violation) Unit :=
  report (node host schema (MAX_DEPTH + 1) schema inst "")

/-- Validate `inst` against a definition of `document`. -/
def validateDef (host : Host) (document : Value) (name : String) (inst : Value) :
    Except (List Violation) Unit :=
  match definition document name with
  | none => .error [.new "" "unknown-definition" ("schema has no $defs/" ++ name)]
  | some schema => report (node host document (MAX_DEPTH + 1) schema inst "")

end Validation
end IndieWorker
