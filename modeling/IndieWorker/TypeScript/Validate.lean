import IndieWorker.Lib.Findings
import IndieWorker.TypeScript.RegExp
import IndieWorker.TypeScript.Stringify
import IndieWorker.Validation.JsonSchema

/-!
# The TypeScript validator

`typescript/src/validate.mjs`.  The source pushes violations onto `out`; here each
function returns what it pushes, in order, unless it throws.  Nothing bounds the
recursion of `walk`, so it is given a number of steps and says when they run out.
The key sets and the pointers are written as in the Rust source and are shared.
-/

namespace IndieWorker
namespace TypeScript

open Validation Findings

/-- What the validator takes from the language: its regular expressions, how a number
is printed, and how a number compares with the number that a text spells. -/
structure EcmaScript where
  regExp : RegExp
  numberText : NumberText
  lessText : ℚ → String → Bool
  greaterText : ℚ → String → Bool

structure Violation where
  pointer : String
  rule : String
  message : String
  deriving DecidableEq, Repr

/-- Why there is no answer. -/
inductive Stop where
  | typeError
  | syntaxError
  | outOfSteps
  deriving DecidableEq, Repr

/-! ## Regular expressions of the source -/

section Formats

variable (text : List Char)

instance : Decidable (text ∈ FORMATS.uuid) := decidable_of_iff _ isUuid_iff

instance : Decidable (text ∈ FORMATS.dateTime) := decidable_of_iff _ isDateTime_iff

instance : Decidable (text ∈ FORMATS.date) := decidable_of_iff _ isDate_iff

instance : Decidable (text ∈ FORMATS.byte) := decidable_of_iff _ isBase64_iff

end Formats

/-- The entry of `FORMATS` under a name, as its `test`. -/
def formatTest (name : String) : Option (String → Bool) :=
  if name = "uuid" then some fun text => decide (text.toList ∈ FORMATS.uuid)
  else if name = "date-time" then some fun text => decide (text.toList ∈ FORMATS.dateTime)
  else if name = "date" then some fun text => decide (text.toList ∈ FORMATS.date)
  else if name = "byte" then some fun text => decide (text.toList ∈ FORMATS.byte)
  else none

/-- `[A-Za-z0-9_-]+` -/
def isDefName (name : String) : Bool :=
  !name.toList.isEmpty && name.toList.all fun c => c.isAlphanum || c == '_' || c == '-'

/-- The group of `/^#\/\$defs\/([A-Za-z0-9_-]+)$/`. -/
def refName (reference : String) : Option String :=
  (stripPrefix "#/$defs/" reference).filter isDefName

/-! ## Conversions -/

def JsValue.isNull : JsValue → Bool
  | .null => true
  | _ => false

mutual

/-- `String(v)`, unless it throws.  An object is converted by the `toString` it inherits;
a member of that name is nothing that could be called, and hides it. -/
def EcmaScript.text (es : EcmaScript) : JsValue → Option String
  | .null => some "null"
  | .boolean b => some (if b then "true" else "false")
  | .number x => some (es.numberText.print x)
  | .string s => some s
  | .array items => (es.texts items).map (",".intercalate ·)
  | .object members =>
    if (members.lookup "toString").isSome then none else some "[object Object]"

/-- The texts that `join` puts together, in which `null` is empty. -/
def EcmaScript.texts (es : EcmaScript) : List JsValue → Option (List String)
  | [] => some []
  | item :: items =>
    match if item.isNull then some "" else es.text item with
    | none => none
    | some text => (es.texts items).map (text :: ·)

end

section Conversions

variable (es : EcmaScript)

/-- A number compared with a value, unless it throws: with the number the value is, or
with the number its text spells. -/
def EcmaScript.compare (number : ℚ → Bool) (text : String → Bool) : JsValue → Option Bool
  | .null => some (number 0)
  | .boolean b => some (number (if b then 1 else 0))
  | .number y => some (number y.value)
  | .string s => some (text s)
  | .array items => (es.text (.array items)).map text
  -- the text of an object spells no number
  | .object members => (es.text (.object members)).map fun _ => false

/-- `x < v` -/
def EcmaScript.less (x : ℚ) (v : JsValue) : Option Bool :=
  es.compare (fun y => decide (x < y)) (es.lessText x) v

/-- `x > v` -/
def EcmaScript.greater (x : ℚ) (v : JsValue) : Option Bool :=
  es.compare (fun y => decide (x > y)) (es.greaterText x) v

def EcmaScript.json (v : JsValue) : String := stringify es.numberText.print v

theorem EcmaScript.json_inj {v w : JsValue} : es.json v = es.json w ↔ v = w := stringify_inj

end Conversions

/-! ## The parts of `walk` -/

def kindOf : JsValue → String
  | .null => "null"
  | .array _ => "array"
  | .number x => if x.value.den = 1 then "integer" else "number"
  | .boolean _ => "boolean"
  | .string _ => "string"
  | .object _ => "object"

def typeMatches (expected : JsValue) (actual : String) : Bool :=
  match expected with
  | .string t => t == actual || (t == "number" && actual == "integer")
  | _ => false

/-- `root.$defs ?? {}` -/
def definitions (root : JsValue) : JsValue :=
  match root.property "$defs" with
  | none | some .null => .object []
  | some defs => defs

/-- What an object inherits under a name.  Nothing of it has one of the keywords; a
function counts as true and is no schema, and 1 stands for it. -/
def inherited (name : String) : JsValue :=
  if name = "__proto__" then .object [] else .size 1

/-- `(root.$defs ?? {})[name]` -/
def definition (root : JsValue) (name : String) : Option JsValue :=
  match (definitions root).property name with
  | some target => some target
  | none => if (definitions root).inherits name then some (inherited name) else none

/-- Follow references, at most as many as there are hops left. -/
def deref (root : JsValue) (pointer : String) : Nat → JsValue → Except Violation JsValue
  | hops, current =>
    match current.property "$ref" with
    | some (.string reference) =>
      match hops with
      | 0 => .error ⟨pointer, "depth", "$ref chain is too deep"⟩
      | hops + 1 =>
        match refName reference with
        | none =>
          .error ⟨pointer, "unsupported-ref", "only #/$defs/<Name> is supported, got " ++ reference⟩
        | some name =>
          match (definition root name).filter (!·.isFalsy) with
          | none =>
            .error ⟨pointer, "unknown-definition", "$ref points at missing $defs/" ++ name⟩
          | some target => deref root pointer hops target
    | _ => .ok current

/-- The hops from 0 to 16. -/
def MAX_HOPS : Nat := 17

section Rules

variable (es : EcmaScript)

def unsupportedKeywords (node : JsValue) (pointer : String) : List Violation :=
  (node.keys.filter fun key => !isSupportedKey key).map fun key =>
    ⟨pointer, "unsupported-keyword", key ++ " is outside the supported subset"⟩

/-- The types that a node lists. -/
def expectedTypes : JsValue → List JsValue
  | .array types => types
  | type => [type]

/-- The violation of `type` that ends the node, if there is one. -/
def typeRule (node : JsValue) (actual pointer : String) : Except Stop (Option Violation) :=
  match node.property "type" with
  | none => .ok none
  | some type =>
    if (expectedTypes type).any (typeMatches · actual) then .ok none
    else
      match es.texts (expectedTypes type) with
      | none => .error .typeError
      | some texts =>
        .ok (some ⟨pointer, "type",
          "expected " ++ " or ".intercalate texts ++ ", got " ++ actual⟩)

def constRule (node inst : JsValue) (pointer : String) : List Violation :=
  match node.property "const" with
  | some const =>
    if es.json inst ≠ es.json const then [⟨pointer, "const", "expected " ++ es.json const⟩] else []
  | none => []

def enumRule (node inst : JsValue) (pointer : String) : List Violation :=
  match node.property "enum" with
  | some (.array options) =>
    if options.any fun v => es.json v == es.json inst then []
    else
      [⟨pointer, "enum", es.json inst ++ " is not one of " ++ es.json (.array options)⟩]
  | _ => []

/-- A bound that is broken is printed in the message. -/
def boundRule (broken : JsValue → Option Bool) (node : JsValue) (key : String)
    (violation : String → Violation) : Except Stop (List Violation) :=
  match node.property key with
  | none => .ok []
  | some bound =>
    match broken bound with
    | none => .error .typeError
    | some false => .ok []
    | some true =>
      match es.text bound with
      | none => .error .typeError
      | some text => .ok [violation text]

/-- `value < node[key]` -/
def belowRule (node : JsValue) (key : String) (value : ℚ) (violation : String → Violation) :
    Except Stop (List Violation) :=
  boundRule es (es.less value) node key violation

/-- `value > node[key]` -/
def aboveRule (node : JsValue) (key : String) (value : ℚ) (violation : String → Violation) :
    Except Stop (List Violation) :=
  boundRule es (es.greater value) node key violation

def patternRule (node : JsValue) (text pointer : String) : Except Stop (List Violation) :=
  match node.property "pattern" with
  | none => .ok []
  | some pattern =>
    match es.text pattern with
    | none => .error .typeError
    | some source =>
      match es.regExp.compile source with
      | none => .error .syntaxError
      | some test =>
        if test text then .ok []
        else .ok [⟨pointer, "pattern", "does not match " ++ source⟩]

def formatRule (node : JsValue) (text pointer : String) : Except Stop (List Violation) :=
  match node.property "format" with
  | none => .ok []
  | some format =>
    match es.text format with
    | none => .error .typeError
    | some name =>
      match formatTest name with
      | some test =>
        if test text then .ok [] else .ok [⟨pointer, "format", "not a valid " ++ name⟩]
      | none =>
        -- what `FORMATS` inherits is there, but has no `test`
        if name ∈ INHERITED then .error .typeError
        else .ok [⟨pointer, "unsupported-format", name ++ " is outside the supported subset"⟩]

def stringRules (node : JsValue) (text pointer : String) : Except Stop (List Violation) :=
  let length : ℚ := text.toList.length
  andThen
    (andThen
      (belowRule es node "minLength" length
        (fun min => ⟨pointer, "min-length", "shorter than " ++ min⟩))
      (aboveRule es node "maxLength" length
        (fun max => ⟨pointer, "max-length", "longer than " ++ max⟩)))
    (andThen (patternRule es node text pointer) (formatRule es node text pointer))

def numberRules (node : JsValue) (x : Binary64) (pointer : String) :
    Except Stop (List Violation) :=
  andThen
    (belowRule es node "minimum" x.value (fun min => ⟨pointer, "minimum", "below " ++ min⟩))
    (aboveRule es node "maximum" x.value (fun max => ⟨pointer, "maximum", "above " ++ max⟩))

def lengthRules (node : JsValue) (items : List JsValue) (pointer : String) :
    Except Stop (List Violation) :=
  andThen
    (belowRule es node "minItems" items.length
      (fun min => ⟨pointer, "min-items", "fewer than " ++ min ++ " items"⟩))
    (aboveRule es node "maxItems" items.length
      (fun max => ⟨pointer, "max-items", "more than " ++ max ++ " items"⟩))

/-! The functions below take the walk over a child as `child`. -/

variable (child : JsValue → JsValue → String → Except Stop (List Violation))

def arrayRules (node : JsValue) (items : List JsValue) (pointer : String) :
    Except Stop (List Violation) :=
  andThen (lengthRules es node items pointer)
    (match node.property "items" with
      | some itemSchema =>
        forEach (fun (item, i) => child itemSchema item (itemPointer pointer i)) items.zipIdx
      | none => .ok [])

/-- What `for (const name of names)` runs over. -/
def iterate : JsValue → Except Stop (List JsValue)
  | .array items => .ok items
  | .string s => .ok (s.toList.map fun c => .string (String.singleton c))
  | _ => .error .typeError

/-- One turn over `required`; only a string can be escaped. -/
def requiredName (object : List (String × JsValue)) (name : JsValue) (pointer : String) :
    Except Stop (List Violation) :=
  match es.text name with
  | none => .error .typeError
  | some key =>
    if (object.lookup key).isSome then .ok []
    else
      match name with
      | .string name => .ok [⟨memberPointer pointer name, "required", name ++ " is required"⟩]
      | _ => .error .typeError

def requiredRule (node : JsValue) (object : List (String × JsValue)) (pointer : String) :
    Except Stop (List Violation) :=
  match node.property "required" with
  | none | some .null => .ok []
  | some required =>
    match iterate required with
    | .error stop => .error stop
    | .ok names => forEach (requiredName es object · pointer) names

def memberRule (node : JsValue) (name : String) (value : JsValue) (pointer : String) :
    Except Stop (List Violation) :=
  let childPointer := memberPointer pointer name
  match (node.property "properties").bind (JsValue.property · name) with
  | some childSchema => child childSchema value childPointer
  | none =>
    match node.property "additionalProperties" with
    | some (.boolean false) =>
      .ok [⟨childPointer, "additional-properties", name ++ " is not an allowed property"⟩]
    | some (.object members) => child (.object members) value childPointer
    | some (.array items) => child (.array items) value childPointer
    | _ => .ok []

def objectRules (node : JsValue) (object : List (String × JsValue)) (pointer : String) :
    Except Stop (List Violation) :=
  andThen (requiredRule es node object pointer)
    (forEach (fun (name, value) => memberRule child node name value pointer) object)

def oneOfRule (node inst : JsValue) (pointer : String) : Except Stop (List Violation) :=
  match node.property "oneOf" with
  | some (.array branches) =>
    match clean (child · inst pointer) branches with
    | .error stop => .error stop
    | .ok matched =>
      if matched.length ≠ 1 then
        .ok [⟨pointer, "one-of",
          "expected exactly one of " ++ toString branches.length ++ " branches to match, " ++
            toString matched.length ++ " did"⟩]
      else .ok []
  | _ => .ok []

/-- The rules for the kind of the instance. -/
def kindRules (node inst : JsValue) (pointer : String) : Except Stop (List Violation) :=
  match inst with
  | .string text => stringRules es node text pointer
  | .number x => numberRules es node x pointer
  | .array items => arrayRules es child node items pointer
  | .object object => objectRules es child node object pointer
  | _ => .ok []

/-- The rules of a node, behind its references. -/
def nodeRules (node inst : JsValue) (pointer : String) : Except Stop (List Violation) :=
  andThen (.ok (unsupportedKeywords node pointer))
    (match typeRule es node (kindOf inst) pointer with
      | .error stop => .error stop
      | .ok (some violation) => .ok [violation]
      | .ok none =>
        andThen (.ok (constRule es node inst pointer ++ enumRule es node inst pointer))
          (andThen (kindRules es child node inst pointer) (oneOfRule child node inst pointer)))

end Rules

/-- What `walk` pushes for `inst` against `schema`. -/
def walk (es : EcmaScript) (root : JsValue) :
    Nat → JsValue → JsValue → String → Except Stop (List Violation)
  | 0, _, _, _ => .error .outOfSteps
  | steps + 1, schema, inst, pointer =>
    match schema with
    | .boolean true => .ok []
    | .boolean false => .ok [⟨pointer, "false-schema", "nothing validates here"⟩]
    | .object _ | .array _ =>
      match deref root pointer MAX_HOPS schema with
      | .error violation => .ok [violation]
      | .ok node => nodeRules es (walk es root steps) node inst pointer
    | _ => .ok [⟨pointer, "malformed-schema", "schema must be an object or a boolean"⟩]

/-- Validate `inst` against `schema`, resolving references inside it. -/
def validate (es : EcmaScript) (steps : Nat) (schema inst : JsValue) :
    Except Stop (List Violation) :=
  walk es schema steps schema inst ""

/-- Validate `inst` against a definition of `document`. -/
def validateDef (es : EcmaScript) (steps : Nat) (document : JsValue) (name : String)
    (inst : JsValue) : Except Stop (List Violation) :=
  if document.isNull then .error .typeError
  else
    match (definition document name).filter (!·.isFalsy) with
    | none => .ok [⟨"", "unknown-definition", "schema has no $defs/" ++ name⟩]
    | some target => walk es document steps target inst name

end TypeScript
end IndieWorker
