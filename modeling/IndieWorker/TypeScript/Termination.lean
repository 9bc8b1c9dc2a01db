import IndieWorker.Lib.Recursion
import IndieWorker.TypeScript.Validate

/-!
# When the TypeScript walk comes to an end

A reference chain is cut after some hops, but nothing bounds how often `walk`
calls itself.  A call goes from a schema and an instance to a subschema and a part
of the instance, or under `oneOf` to a branch and the whole instance, so that only
finitely many calls are possible and the walk ends unless it enters one of them
below itself.
-/

namespace IndieWorker
namespace TypeScript

open Validation Findings Recursion

/-! ## The calls of the walk -/

/-- A schema and the instance it is applied to. -/
abbrev Application : Type := JsValue × JsValue

section Calls

variable (es : EcmaScript) (root : JsValue)

def typeAdmits (node : JsValue) (actual : String) : Bool :=
  match node.property "type" with
  | none => true
  | some type => (expectedTypes type).any (typeMatches · actual)

/-- What the node lists instead of the type has no text. -/
def typeThrows (node : JsValue) (actual : String) : Bool :=
  match node.property "type" with
  | none => false
  | some type => !typeAdmits node actual && (es.texts (expectedTypes type)).isNone

/-- The node that a schema stands for, behind its references. -/
def nodeOf (schema : JsValue) : Option JsValue :=
  match schema with
  | .object _ | .array _ =>
    match deref root "" MAX_HOPS schema with
    | .error _ => none
    | .ok node => some node
  | _ => none

/-- The bound has no text, or it is broken and has none. -/
def boundThrows (broken : JsValue → Option Bool) (node : JsValue) (key : String) : Bool :=
  match node.property key with
  | none => false
  | some bound =>
    match broken bound with
    | none => true
    | some isBroken => isBroken && (es.text bound).isNone

def boundsThrow (node : JsValue) (lo hi : String) (value : ℚ) : Bool :=
  boundThrows es (es.less value) node lo || boundThrows es (es.greater value) node hi

def patternThrows (node : JsValue) : Bool :=
  match node.property "pattern" with
  | none => false
  | some pattern =>
    match es.text pattern with
    | none => true
    | some source => (es.regExp.compile source).isNone

/-- The format has no text, or the name is inherited and what it names has no `test`. -/
def formatThrows (node : JsValue) : Bool :=
  match node.property "format" with
  | none => false
  | some format =>
    match es.text format with
    | none => true
    | some name => (formatTest name).isNone && decide (name ∈ INHERITED)

def isText : JsValue → Bool
  | .string _ => true
  | _ => false

/-- The name has no text, or it is missing and no string. -/
def nameThrows (object : List (String × JsValue)) (name : JsValue) : Bool :=
  match es.text name with
  | none => true
  | some key => (object.lookup key).isNone && !isText name

/-- The names cannot be run over, or one of them throws. -/
def namesThrow (object : List (String × JsValue)) (required : JsValue) : Bool :=
  match iterate required with
  | .error _ => true
  | .ok names => names.any (nameThrows es object)

def requiredThrows (node : JsValue) (object : List (String × JsValue)) : Bool :=
  match node.property "required" with
  | none | some .null => false
  | some required => namesThrow es object required

/-- The rules for the kind of the instance throw before they call the walk. -/
def kindThrows (node inst : JsValue) : Bool :=
  match inst with
  | .string text =>
    boundsThrow es node "minLength" "maxLength" text.toList.length ||
      (patternThrows es node || formatThrows es node)
  | .number x => boundsThrow es node "minimum" "maximum" x.value
  | .array items => boundsThrow es node "minItems" "maxItems" items.length
  | .object object => requiredThrows es node object
  | _ => false

/-- The schema of a member that is not listed. -/
def additionalSchema (node : JsValue) : Option JsValue :=
  match node.property "additionalProperties" with
  | some (.object members) => some (.object members)
  | some (.array items) => some (.array items)
  | _ => none

/-- The call for a member. -/
def memberCall (node : JsValue) (member : String × JsValue) : Option Application :=
  match (node.property "properties").bind (JsValue.property · member.1) with
  | some schema => some (schema, member.2)
  | none => (additionalSchema node).map (·, member.2)

def kindCalls (node inst : JsValue) : List Application :=
  match inst with
  | .array items =>
    match node.property "items" with
    | some schema => items.map (schema, ·)
    | none => []
  | .object object => object.filterMap (memberCall node)
  | _ => []

def oneOfCalls (node inst : JsValue) : List Application :=
  match node.property "oneOf" with
  | some (.array branches) => branches.map (·, inst)
  | _ => []

def throws (p : Application) : Bool :=
  match nodeOf root p.1 with
  | none => false
  | some node =>
    typeThrows es node (kindOf p.2) || typeAdmits node (kindOf p.2) && kindThrows es node p.2

/-- The calls of the walk, in their order. -/
def calls (p : Application) : List Application :=
  match nodeOf root p.1 with
  | none => []
  | some node =>
    if typeAdmits node (kindOf p.2) then kindCalls node p.2 ++ oneOfCalls node p.2 else []

end Calls

/-! ## The outcome of a walk -/

def outcome {α : Type} : Except Stop α → Outcome
  | .ok _ => .returned
  | .error .outOfSteps => .outOfSteps
  | .error _ => .threw

def throwIf : Bool → Outcome
  | true => .threw
  | false => .returned

section Outcome

variable {α β : Type}

theorem outcome_eq_outOfSteps_iff {r : Except Stop α} :
    outcome r = .outOfSteps ↔ r = .error .outOfSteps := by
  cases r with
  | ok found => exact iff_of_false nofun nofun
  | error stop => cases stop <;> simp [outcome]

theorem outcome_andThen {first second : Except Stop (List α)} :
    outcome (andThen first second) =
      match outcome first with
      | .returned => outcome second
      | stop => stop := by
  cases first with
  | error stop => cases stop <;> rfl
  | ok found =>
    cases second with
    | error stop => rfl
    | ok more => rfl

theorem outcome_andThen_ok {found : List α} {second : Except Stop (List α)} :
    outcome (andThen (.ok found) second) = outcome second := by
  rw [outcome_andThen]
  rfl

theorem outcome_forEach {check : β → Except Stop (List α)} {call : β → Option Application}
    {f : Application → Outcome}
    (h : ∀ x, outcome (check x) = ((call x).map f).getD .returned) (xs : List β) :
    outcome (forEach check xs) = runAll f (xs.filterMap call) := by
  induction xs with
  | nil => rfl
  | cons x xs ih =>
    rw [forEach, outcome_andThen, h x]
    cases hx : call x with
    | none => rw [List.filterMap_cons_none hx, ← ih]; rfl
    | some c =>
      rw [List.filterMap_cons_some hx, runAll, ih]
      rfl

theorem outcome_clean {check : β → Except Stop (List α)} {call : β → Application}
    {f : Application → Outcome} (h : ∀ x, outcome (check x) = f (call x)) (xs : List β) :
    outcome (clean check xs) = runAll f (xs.map call) := by
  induction xs with
  | nil => rfl
  | cons x xs ih =>
    rw [clean, List.map_cons, runAll, ← h x, ← ih]
    cases check x with
    | error stop => cases stop <;> rfl
    | ok found =>
      cases clean check xs with
      | error stop => rfl
      | ok rest => rfl

end Outcome

/-! ## The walk makes its calls -/

section Walk

variable {es : EcmaScript} {root : JsValue}

theorem deref_pointer (pointer : String) (hops : Nat) (current : JsValue) :
    (deref root pointer hops current).toOption = (deref root "" hops current).toOption := by
  induction hops generalizing current with
  | zero =>
    unfold deref
    split <;> rfl
  | succ hops ih =>
    unfold deref
    split
    · dsimp only
      split
      · rfl
      · split
        · rfl
        · exact ih _
    · rfl

theorem outcome_boundRule {broken : JsValue → Option Bool} (node : JsValue) (key : String)
    (violation : String → Violation) :
    outcome (boundRule es broken node key violation) =
      throwIf (boundThrows es broken node key) := by
  unfold boundRule boundThrows
  cases node.property key with
  | none => rfl
  | some bound =>
    dsimp only
    cases broken bound with
    | none => rfl
    | some isBroken =>
      cases isBroken with
      | false => rfl
      | true =>
        dsimp only
        cases es.text bound <;> rfl

/-- One check after the other throws if one of them does. -/
theorem outcome_andThen_throwIf {first second : Except Stop (List Violation)} {b b' : Bool}
    (hfirst : outcome first = throwIf b) (hsecond : outcome second = throwIf b') :
    outcome (andThen first second) = throwIf (b || b') := by
  rw [outcome_andThen, hfirst, hsecond]
  cases b with
  | true => rfl
  | false => rfl

theorem outcome_patternRule (node : JsValue) (text pointer : String) :
    outcome (patternRule es node text pointer) = throwIf (patternThrows es node) := by
  unfold patternRule patternThrows
  cases node.property "pattern" with
  | none => rfl
  | some pattern =>
    dsimp only
    cases es.text pattern with
    | none => rfl
    | some source =>
      dsimp only
      cases es.regExp.compile source with
      | none => rfl
      | some test =>
        dsimp only
        split <;> rfl

theorem outcome_formatRule (node : JsValue) (text pointer : String) :
    outcome (formatRule es node text pointer) = throwIf (formatThrows es node) := by
  unfold formatRule formatThrows
  cases node.property "format" with
  | none => rfl
  | some format =>
    dsimp only
    cases es.text format with
    | none => rfl
    | some name =>
      dsimp only
      cases formatTest name with
      | some test =>
        dsimp only
        split <;> rfl
      | none =>
        dsimp only
        by_cases h : name ∈ INHERITED
        · simp [h, outcome, throwIf]
        · simp [h, outcome, throwIf]

theorem outcome_stringRules (node : JsValue) (text pointer : String) :
    outcome (stringRules es node text pointer) = throwIf (kindThrows es node (.string text)) := by
  exact outcome_andThen_throwIf
    (outcome_andThen_throwIf (outcome_boundRule _ _ _) (outcome_boundRule _ _ _))
    (outcome_andThen_throwIf (outcome_patternRule _ _ _) (outcome_formatRule _ _ _))

theorem outcome_requiredName (object : List (String × JsValue)) (name : JsValue)
    (pointer : String) :
    outcome (requiredName es object name pointer) = throwIf (nameThrows es object name) := by
  unfold requiredName nameThrows
  cases es.text name with
  | none => rfl
  | some key =>
    dsimp only
    cases object.lookup key with
    | some value => simp [outcome, throwIf]
    | none => cases name <;> simp [outcome, isText, throwIf]

theorem outcome_requiredNames (object : List (String × JsValue)) (names : List JsValue)
    (pointer : String) : outcome (forEach (requiredName es object · pointer) names) =
      throwIf (names.any (nameThrows es object)) := by
  induction names with
  | nil => rfl
  | cons name names ih =>
    rw [forEach, List.any_cons]
    exact outcome_andThen_throwIf (outcome_requiredName object name pointer) ih

/-- What cannot be iterated over is a type error. -/
theorem iterate_eq_typeError {v : JsValue} {stop : Stop} (h : iterate v = .error stop) :
    stop = .typeError := by
  unfold iterate at h
  split at h
  · cases h
  · cases h
  · cases h
    rfl

theorem outcome_requiredRule (node : JsValue) (object : List (String × JsValue))
    (pointer : String) : outcome (requiredRule es node object pointer) =
      throwIf (requiredThrows es node object) := by
  have hrun : ∀ required : JsValue, outcome (match iterate required with
      | .error stop => .error stop
      | .ok names => forEach (requiredName es object · pointer) names) =
      throwIf (namesThrow es object required) := by
    intro required
    unfold namesThrow
    cases hiterate : iterate required with
    | error stop =>
      rw [iterate_eq_typeError hiterate]
      rfl
    | ok names => exact outcome_requiredNames object names pointer
  unfold requiredRule requiredThrows
  cases node.property "required" with
  | none => rfl
  | some required =>
    cases required with
    | null => rfl
    | boolean b => exact hrun (.boolean b)
    | number x => exact hrun (.number x)
    | string s => exact hrun (.string s)
    | array items => exact hrun (.array items)
    | object members => exact hrun (.object members)

section Child

variable {child : JsValue → JsValue → String → Except Stop (List Violation)}
  {f : Application → Outcome} (hchild : ∀ s v p, outcome (child s v p) = f (s, v))

include hchild

theorem outcome_memberRule (node : JsValue) (member : String × JsValue) (pointer : String) :
    outcome (memberRule child node member.1 member.2 pointer) =
      ((memberCall node member).map f).getD .returned := by
  unfold memberRule memberCall additionalSchema
  dsimp only
  cases (node.property "properties").bind (JsValue.property · member.1) with
  | some schema => exact hchild _ _ _
  | none =>
    dsimp only
    cases node.property "additionalProperties" with
    | none => rfl
    | some other =>
      cases other with
      | boolean b => cases b <;> rfl
      | object members => exact hchild _ _ _
      | array items => exact hchild _ _ _
      | _ => rfl

theorem outcome_itemCalls (schema : JsValue) (items : List JsValue) (pointer : String) :
    outcome (forEach (fun x : JsValue × ℕ => child schema x.1 (itemPointer pointer x.2))
      items.zipIdx) = runAll f (items.map (schema, ·)) := by
  have hcall : ∀ x : JsValue × ℕ, outcome (child schema x.1 (itemPointer pointer x.2)) =
      (((fun x : JsValue × ℕ => some (schema, x.1)) x).map f).getD .returned :=
    fun x => hchild _ _ _
  have hcalls : items.zipIdx.filterMap (fun x => some (schema, x.1)) =
      items.map (schema, ·) := by
    calc items.zipIdx.filterMap (fun x => some (schema, x.1))
        = items.zipIdx.map (fun x => (schema, x.1)) := by
          rw [← List.filterMap_eq_map]; rfl
      _ = (items.zipIdx.map Prod.fst).map (schema, ·) := by rw [List.map_map]; rfl
      _ = items.map (schema, ·) := by rw [List.zipIdx_map_fst]
  rw [← hcalls]
  exact outcome_forEach hcall _

theorem outcome_arrayRules (node : JsValue) (items : List JsValue) (pointer : String) :
    outcome (arrayRules es child node items pointer) =
      if kindThrows es node (.array items) then .threw
      else runAll f (kindCalls node (.array items)) := by
  have hbounds : outcome (lengthRules es node items pointer) =
      throwIf (kindThrows es node (.array items)) :=
    outcome_andThen_throwIf (outcome_boundRule _ _ _) (outcome_boundRule _ _ _)
  unfold arrayRules
  rw [outcome_andThen, hbounds]
  cases kindThrows es node (.array items) with
  | true => rfl
  | false =>
    unfold kindCalls
    dsimp only [throwIf]
    rw [if_neg Bool.false_ne_true]
    cases node.property "items" with
    | none => rfl
    | some schema => exact outcome_itemCalls hchild schema items pointer

theorem outcome_kindRules (node inst : JsValue) (pointer : String) :
    outcome (kindRules es child node inst pointer) =
      if kindThrows es node inst then .threw else runAll f (kindCalls node inst) := by
  cases inst with
  | string text =>
    show outcome (stringRules es node text pointer) = _
    rw [outcome_stringRules]
    cases kindThrows es node (.string text) with
    | true => rfl
    | false => rfl
  | number x =>
    have hbounds : outcome (numberRules es node x pointer) =
        throwIf (kindThrows es node (.number x)) :=
      outcome_andThen_throwIf (outcome_boundRule _ _ _) (outcome_boundRule _ _ _)
    show outcome (numberRules es node x pointer) = _
    rw [hbounds]
    cases kindThrows es node (.number x) with
    | true => rfl
    | false => rfl
  | array items => exact outcome_arrayRules hchild node items pointer
  | object object =>
    show outcome (objectRules es child node object pointer) =
      if requiredThrows es node object then .threw
      else runAll f (object.filterMap (memberCall node))
    unfold objectRules
    rw [outcome_andThen, outcome_requiredRule]
    cases requiredThrows es node object with
    | true => rfl
    | false => exact outcome_forEach (fun m => outcome_memberRule hchild node m pointer) _
  | _ => rfl

theorem outcome_oneOfRule (node inst : JsValue) (pointer : String) :
    outcome (oneOfRule child node inst pointer) = runAll f (oneOfCalls node inst) := by
  unfold oneOfRule oneOfCalls
  cases node.property "oneOf" with
  | none => rfl
  | some v =>
    cases v with
    | array branches =>
      show outcome (match clean (child · inst pointer) branches with
        | .error stop => .error stop
        | .ok matched => _) = runAll f (branches.map (·, inst))
      rw [← outcome_clean fun branch => hchild branch inst pointer]
      cases clean (child · inst pointer) branches with
      | error stop => cases stop <;> rfl
      | ok matched =>
        dsimp only
        split <;> rfl
    | _ => rfl

end Child

theorem eval_of_none {n : ℕ} {schema inst : JsValue} (h : nodeOf root schema = none) :
    eval (throws es root) (calls root) (n + 1) (schema, inst) = .returned := by
  have hthrows : throws es root (schema, inst) = false := by rw [throws, h]
  have hcalls : calls root (schema, inst) = [] := by rw [calls, h]
  rw [eval, hthrows, hcalls]
  rfl

theorem eval_of_some {n : ℕ} {schema inst node : JsValue} (h : nodeOf root schema = some node) :
    eval (throws es root) (calls root) (n + 1) (schema, inst) =
      if typeAdmits node (kindOf inst) then
        if kindThrows es node inst then .threw
        else runAll (eval (throws es root) (calls root) n)
          (kindCalls node inst ++ oneOfCalls node inst)
      else throwIf (typeThrows es node (kindOf inst)) := by
  have hquiet : typeAdmits node (kindOf inst) = true →
      typeThrows es node (kindOf inst) = false := by
    intro hadmits
    unfold typeThrows
    cases node.property "type" with
    | none => rfl
    | some type =>
      dsimp only
      rw [hadmits]
      rfl
  have hthrows : throws es root (schema, inst) = (typeThrows es node (kindOf inst) ||
      typeAdmits node (kindOf inst) && kindThrows es node inst) := by rw [throws, h]
  have hcalls : calls root (schema, inst) = if typeAdmits node (kindOf inst) then
      kindCalls node inst ++ oneOfCalls node inst else [] := by rw [calls, h]
  rw [eval, hthrows, hcalls]
  cases hadmits : typeAdmits node (kindOf inst) with
  | true =>
    rw [hquiet hadmits]
    rfl
  | false =>
    cases typeThrows es node (kindOf inst) with
    | true => rfl
    | false => rfl

/-- The rules of a node make its calls, if they come to it. -/
theorem outcome_nodeRules {n : ℕ}
    (ih : ∀ s v p, outcome (walk es root n s v p) =
      eval (throws es root) (calls root) n (s, v)) (node inst : JsValue) (pointer : String) :
    outcome (nodeRules es (walk es root n) node inst pointer) =
      if typeAdmits node (kindOf inst) then
        if kindThrows es node inst then .threw
        else runAll (eval (throws es root) (calls root) n)
          (kindCalls node inst ++ oneOfCalls node inst)
      else throwIf (typeThrows es node (kindOf inst)) := by
  have hrest : outcome (andThen
      (.ok (constRule es node inst pointer ++ enumRule es node inst pointer))
      (andThen (kindRules es (walk es root n) node inst pointer)
        (oneOfRule (walk es root n) node inst pointer))) =
      if kindThrows es node inst then .threw
      else runAll (eval (throws es root) (calls root) n)
        (kindCalls node inst ++ oneOfCalls node inst) := by
    rw [outcome_andThen_ok, outcome_andThen, outcome_kindRules ih, outcome_oneOfRule ih,
      runAll_append]
    cases kindThrows es node inst with
    | true => rfl
    | false => rfl
  unfold nodeRules
  rw [outcome_andThen_ok]
  unfold typeRule typeThrows typeAdmits
  cases node.property "type" with
  | none => exact hrest
  | some type =>
    dsimp only
    by_cases hadmits : (expectedTypes type).any (typeMatches · (kindOf inst)) = true
    · rw [if_pos hadmits, if_pos hadmits]
      exact hrest
    · rw [if_neg hadmits, if_neg hadmits, Bool.eq_false_iff.mpr hadmits]
      cases es.texts (expectedTypes type) <;> rfl

theorem outcome_walk (n : ℕ) (schema inst : JsValue) (pointer : String) :
    outcome (walk es root n schema inst pointer) =
      eval (throws es root) (calls root) n (schema, inst) := by
  induction n generalizing schema inst pointer with
  | zero => rfl
  | succ n ih =>
    have hnode : ∀ s : JsValue, nodeOf root s = (deref root "" MAX_HOPS s).toOption →
        outcome (match deref root pointer MAX_HOPS s with
          | .error violation => .ok [violation]
          | .ok node => nodeRules es (walk es root n) node inst pointer) =
        eval (throws es root) (calls root) (n + 1) (s, inst) := by
      intro s hs
      rw [← deref_pointer pointer] at hs
      cases hderef : deref root pointer MAX_HOPS s with
      | error violation =>
        rw [hderef] at hs
        rw [eval_of_none hs]
        rfl
      | ok node =>
        rw [hderef] at hs
        rw [eval_of_some hs]
        exact outcome_nodeRules ih node inst pointer
    cases schema with
    | object members => exact hnode _ (by unfold nodeOf; cases deref root "" MAX_HOPS _ <;> rfl)
    | array items => exact hnode _ (by unfold nodeOf; cases deref root "" MAX_HOPS _ <;> rfl)
    | boolean b => cases b <;> rfl
    | _ => rfl

end Walk

/-! ## Only finitely many calls are possible -/

/-- The items or the members of a value. -/
def JsValue.parts : JsValue → List JsValue
  | .array items => items
  | .object members => members.map Prod.snd
  | _ => []

theorem sizeOf_lt_of_mem_parts {v w : JsValue} (h : w ∈ v.parts) : sizeOf w < sizeOf v := by
  cases v with
  | array items =>
    have := List.sizeOf_lt_of_mem (show w ∈ items from h)
    rw [JsValue.array.sizeOf_spec]
    omega
  | object members =>
    obtain ⟨m, hm, rfl⟩ := List.mem_map.mp h
    have hlist := List.sizeOf_lt_of_mem hm
    have hpair : sizeOf m = 1 + sizeOf m.1 + sizeOf m.2 := rfl
    rw [JsValue.object.sizeOf_spec]
    omega
  | _ => cases h

/-- A value and everything inside it. -/
def subvalues (v : JsValue) : Set JsValue :=
  {w | Relation.ReflTransGen (fun a b : JsValue => b ∈ a.parts) v w}

theorem subvalues_finite (v : JsValue) : (subvalues v).Finite := by
  induction h : sizeOf v using Nat.strongRecOn generalizing v with
  | _ n ih =>
    have hparts : (⋃ w ∈ {w | w ∈ v.parts}, subvalues w).Finite := by
      apply Set.Finite.biUnion (List.finite_toSet v.parts)
      intro w hw
      exact ih (sizeOf w) (h ▸ sizeOf_lt_of_mem_parts hw) w rfl
    apply (hparts.insert v).subset
    intro w hw
    rcases Relation.ReflTransGen.cases_head hw with rfl | ⟨part, hpart, hrest⟩
    · exact Set.mem_insert _ _
    · exact Set.mem_insert_of_mem _ (Set.mem_biUnion hpart hrest)

/-- An object is no element of a string and no length. -/
theorem object_mem_parts {v : JsValue} {members : List (String × JsValue)}
    (h : .object members ∈ v.own.map Prod.snd) : .object members ∈ v.parts := by
  have hindexed : ∀ elements n,
      .object members ∈ (JsValue.indexed elements ++ [("length", JsValue.size n)]).map Prod.snd →
      .object members ∈ elements := by
    intro elements n hin
    rw [List.map_append, JsValue.indexed, List.map_map] at hin
    rcases List.mem_append.mp hin with hin | hin
    · obtain ⟨⟨element, i⟩, hmem, heq⟩ := List.mem_map.mp hin
      rw [← heq]
      exact List.fst_mem_of_mem_zipIdx hmem
    · cases List.mem_singleton.mp hin
  cases v with
  | object members => exact h
  | array items => exact hindexed _ _ h
  | string s =>
    obtain ⟨c, -, hc⟩ := List.mem_map.mp (hindexed _ _ h)
    cases hc
  | _ => cases h

/-- What is inside a value, and the elements and the lengths of it. -/
def closure (v : JsValue) : Set JsValue :=
  subvalues v ∪ ⋃ w ∈ subvalues v, {x | x ∈ w.own.map Prod.snd}

theorem closure_finite (v : JsValue) : (closure v).Finite :=
  (subvalues_finite v).union
    ((subvalues_finite v).biUnion fun w _ => List.finite_toSet (w.own.map Prod.snd))

theorem closure_of_property {v w x : JsValue} {key : String} (hw : w ∈ subvalues v)
    (h : w.property key = some x) : x ∈ closure v := by
  obtain ⟨before, after, heq, -⟩ := List.lookup_eq_some_iff.mp h
  refine Or.inr (Set.mem_biUnion hw ?_)
  show x ∈ w.own.map Prod.snd
  rw [heq]
  simp

/-- Only an object has a keyword, and the value of the keyword is inside it. -/
theorem subvalues_of_keyword {v s w : JsValue} {key : String} (hs : s ∈ closure v)
    (hlength : key ≠ "length") (hword : key.toList.all Char.isDigit = false)
    (h : s.property key = some w) : w ∈ subvalues v := by
  obtain ⟨members, rfl, hmem⟩ := JsValue.property_of_word hlength hword h
  have hobject : JsValue.object members ∈ subvalues v := by
    rcases hs with hs | hs
    · exact hs
    · obtain ⟨x, hx, hown⟩ := Set.mem_iUnion₂.mp hs
      exact hx.tail (object_mem_parts hown)
  exact hobject.tail (List.mem_map_of_mem (f := Prod.snd) hmem)

section Reach

variable {es : EcmaScript} {root schema inst : JsValue}

/-- The schemas that a walk may apply: what stands in the document or in its first
schema, and what every object inherits. -/
def schemas (root schema : JsValue) : Set JsValue :=
  insert (.object []) (insert (.size 1) (closure root ∪ closure schema))

theorem schemas_finite : (schemas root schema).Finite :=
  (((closure_finite root).union (closure_finite schema)).insert _).insert _

theorem schemas_of_subvalues {w : JsValue} (h : w ∈ subvalues root ∨ w ∈ subvalues schema) :
    w ∈ schemas root schema :=
  Or.inr (Or.inr (h.imp Or.inl Or.inl))

theorem schemas_of_property {w x : JsValue} {key : String}
    (hw : w ∈ subvalues root ∨ w ∈ subvalues schema) (h : w.property key = some x) :
    x ∈ schemas root schema :=
  Or.inr (Or.inr (hw.imp (closure_of_property · h) (closure_of_property · h)))

theorem schemas_keyword {s w : JsValue} {key : String} (hs : s ∈ schemas root schema)
    (hlength : key ≠ "length") (hword : key.toList.all Char.isDigit = false)
    (h : s.property key = some w) : w ∈ subvalues root ∨ w ∈ subvalues schema := by
  rcases hs with rfl | rfl | hs
  · cases h
  · cases h
  · exact hs.imp (subvalues_of_keyword · hlength hword h) (subvalues_of_keyword · hlength hword h)

theorem schemas_definition {name : String} {target : JsValue}
    (h : definition root name = some target) : target ∈ schemas root schema := by
  unfold definition at h
  split at h
  · next t ht =>
    cases h
    unfold definitions at ht
    split at ht
    · cases ht
    · cases ht
    · next defs hdefs =>
      have hroot : root ∈ closure root := Or.inl .refl
      have hin := subvalues_of_keyword hroot (by decide) (by decide) hdefs
      exact schemas_of_property (Or.inl hin) ht
  · split at h
    · cases h
      unfold inherited
      split
      · exact Or.inl rfl
      · exact Or.inr (Or.inl rfl)
    · cases h

theorem schemas_deref {pointer : String} {hops : Nat} {s node : JsValue}
    (hs : s ∈ schemas root schema) (h : deref root pointer hops s = .ok node) :
    node ∈ schemas root schema := by
  induction hops generalizing s with
  | zero =>
    unfold deref at h
    split at h
    · cases h
    · cases h
      exact hs
  | succ hops ih =>
    unfold deref at h
    split at h
    · dsimp only at h
      split at h
      · cases h
      · split at h
        · cases h
        · next hfilter =>
          exact ih (schemas_definition (Option.eq_some_of_filter_eq_some hfilter)) h
    · cases h
      exact hs

theorem schemas_nodeOf {s node : JsValue} (hs : s ∈ schemas root schema)
    (h : nodeOf root s = some node) : node ∈ schemas root schema := by
  have hderef : deref root "" MAX_HOPS s = .ok node := by
    unfold nodeOf at h
    split at h
    · split at h
      · cases h
      · next heq =>
        cases h
        exact heq
    · split at h
      · cases h
      · next heq =>
        cases h
        exact heq
    · cases h
  exact schemas_deref hs hderef

/-- Items and members are parts of the instance. -/
theorem kindCalls_parts {node v : JsValue} {c : Application} (hc : c ∈ kindCalls node v) :
    c.2 ∈ v.parts := by
  cases v with
  | array items =>
    unfold kindCalls at hc
    dsimp only at hc
    split at hc
    · obtain ⟨item, hitem, rfl⟩ := List.mem_map.mp hc
      exact hitem
    · cases hc
  | object object =>
    obtain ⟨member, hmember, hcall⟩ := List.mem_filterMap.mp hc
    have hvalue : c.2 = member.2 := by
      unfold memberCall at hcall
      split at hcall
      · cases hcall
        rfl
      · obtain ⟨s, -, rfl⟩ := Option.map_eq_some_iff.mp hcall
        rfl
    rw [hvalue]
    exact List.mem_map_of_mem (f := Prod.snd) hmember
  | _ => cases hc

theorem schemas_kindCalls {node v : JsValue} (hnode : node ∈ schemas root schema)
    {c : Application} (hc : c ∈ kindCalls node v) : c.1 ∈ schemas root schema := by
  cases v with
  | array items =>
    unfold kindCalls at hc
    dsimp only at hc
    split at hc
    · next s hs =>
      obtain ⟨item, -, rfl⟩ := List.mem_map.mp hc
      exact schemas_of_subvalues (schemas_keyword hnode (by decide) (by decide) hs)
    · cases hc
  | object object =>
    obtain ⟨member, -, hcall⟩ := List.mem_filterMap.mp hc
    unfold memberCall at hcall
    split at hcall
    · next s hs =>
      cases hcall
      obtain ⟨properties, hproperties, hlisted⟩ := Option.bind_eq_some_iff.mp hs
      exact schemas_of_property (schemas_keyword hnode (by decide) (by decide) hproperties) hlisted
    · obtain ⟨s, hs, rfl⟩ := Option.map_eq_some_iff.mp hcall
      unfold additionalSchema at hs
      split at hs
      · next hget =>
        cases hs
        exact schemas_of_subvalues (schemas_keyword hnode (by decide) (by decide) hget)
      · next hget =>
        cases hs
        exact schemas_of_subvalues (schemas_keyword hnode (by decide) (by decide) hget)
      · cases hs
  | _ => cases hc

/-- A branch is applied to the instance itself. -/
theorem oneOfCalls_same {node v : JsValue} (hnode : node ∈ schemas root schema) {c : Application}
    (hc : c ∈ oneOfCalls node v) : c.1 ∈ schemas root schema ∧ c.2 = v := by
  unfold oneOfCalls at hc
  split at hc
  · next branches hbranches =>
    obtain ⟨branch, hbranch, rfl⟩ := List.mem_map.mp hc
    have hin := schemas_keyword hnode (by decide) (by decide) hbranches
    exact ⟨schemas_of_subvalues (hin.imp (·.tail hbranch) (·.tail hbranch)), rfl⟩
  · cases hc

/-- The walk ends exactly when it enters no application below itself. -/
theorem walk_ends_iff {pointer : String} :
    (∃ steps, walk es root steps schema inst pointer ≠ .error .outOfSteps) ↔
      Grounded (throws es root) (calls root) (schema, inst) := by
  have hsteps : ∀ steps, walk es root steps schema inst pointer ≠ .error .outOfSteps ↔
      eval (throws es root) (calls root) steps (schema, inst) ≠ .outOfSteps := by
    intro steps
    rw [← outcome_walk steps schema inst pointer]
    exact not_congr outcome_eq_outOfSteps_iff.symm
  rw [exists_congr hsteps]
  apply ends_iff_grounded (S := schemas root schema ×ˢ subvalues inst)
  · exact schemas_finite.prod (subvalues_finite inst)
  · intro p hp c hc
    obtain ⟨hs, hv⟩ := hp
    unfold calls at hc
    split at hc
    · cases hc
    · next node hnode =>
      have hmem : node ∈ schemas root schema := schemas_nodeOf hs hnode
      split at hc
      · rcases List.mem_append.mp hc with hc | hc
        · exact ⟨schemas_kindCalls hmem hc, hv.tail (kindCalls_parts hc)⟩
        · obtain ⟨hschema, hsame⟩ := oneOfCalls_same hmem hc
          refine ⟨hschema, ?_⟩
          rw [hsame]
          exact hv
      · cases hc
  · exact ⟨schemas_of_subvalues (Or.inr .refl), .refl⟩

/-- Without a branch of `oneOf` on the way every call goes into the instance. -/
theorem grounded_of_no_branches
    (h : ∀ q, Relation.ReflTransGen (Calls (throws es root) (calls root)) (schema, inst) q →
      ∀ node, nodeOf root q.1 = some node → oneOfCalls node q.2 = []) :
    Grounded (throws es root) (calls root) (schema, inst) := by
  apply grounded_of_measure fun q => sizeOf q.2
  intro q hq c hc
  have hcall := hc.2
  unfold calls at hcall
  split at hcall
  · cases hcall
  · next node hnode =>
    split at hcall
    · rw [h q hq node hnode, List.append_nil] at hcall
      exact sizeOf_lt_of_mem_parts (kindCalls_parts hcall)
    · cases hcall

/-- What is inherited has no keyword that calls the walk. -/
theorem grounded_inherited (name : String) :
    Grounded (throws es root) (calls root) (inherited name, inst) := by
  have hkind : kindCalls (.object []) inst = [] := by
    cases inst with
    | object members => exact List.filterMap_eq_nil_iff.mpr fun _ _ => rfl
    | _ => rfl
  have hcalls : calls root (inherited name, inst) = [] := by
    unfold inherited
    split
    · show (if true then kindCalls (.object []) inst ++ [] else []) = []
      rw [hkind]
      rfl
    · rfl
  apply grounded_of_measure fun q => sizeOf q.2
  intro q hq c hc
  have hself : q = (inherited name, inst) := by
    rcases Relation.ReflTransGen.cases_head hq with heq | ⟨first, hfirst, -⟩
    · exact heq.symm
    · exact absurd hfirst.2 (hcalls ▸ List.not_mem_nil)
  rw [hself] at hc
  exact absurd hc.2 (hcalls ▸ List.not_mem_nil)

end Reach

/-! ## A document without an answer -/

/-- A definition that is one of its own branches. -/
def recursiveDocument : JsValue :=
  .object
    [("$defs", .object
        [("A", .object [("oneOf", .array [.object [("$ref", .string "#/$defs/A")]])])]),
      ("$ref", .string "#/$defs/A")]

theorem recursive_oneOf_never_ends : ¬∃ (es : EcmaScript) (steps : Nat),
    validate es steps recursiveDocument .null ≠ .error .outOfSteps := by
  intro hex
  obtain ⟨es, steps, hends⟩ := hex
  apply hends
  let A : JsValue := .object [("$ref", .string "#/$defs/A")]
  let node : JsValue := .object [("oneOf", .array [A])]
  have hnode : nodeOf recursiveDocument A = some node := by rfl
  have hroot : nodeOf recursiveDocument recursiveDocument = some node := by rfl
  have hloop : ∀ n, eval (throws es recursiveDocument) (calls recursiveDocument) n (A, .null) =
      .outOfSteps := by
    intro n
    induction n with
    | zero => rfl
    | succ n ih =>
      rw [eval_of_some hnode]
      show runAll _ [(A, JsValue.null)] = _
      rw [runAll, ih]
  rw [← outcome_eq_outOfSteps_iff, validate, outcome_walk]
  cases steps with
  | zero => rfl
  | succ n =>
    rw [eval_of_some hroot]
    show runAll _ [(A, JsValue.null)] = _
    rw [runAll, hloop]

/-- A validation ends exactly when no application that it enters is entered again
below itself. -/
theorem validation_ends_iff (es : EcmaScript) (document inst : JsValue) :
    ((∃ steps, validate es steps document inst ≠ .error .outOfSteps) ↔
      Grounded (throws es document) (calls document) (document, inst)) ∧
    ∀ name, (∃ steps, validateDef es steps document name inst ≠ .error .outOfSteps) ↔
      ∀ target, (definition document name).filter (!·.isFalsy) = some target →
        Grounded (throws es document) (calls document) (target, inst) := by
  refine ⟨walk_ends_iff, fun name => ?_⟩
  unfold validateDef
  cases hnull : document.isNull with
  | true =>
    refine iff_of_true ⟨0, nofun⟩ fun target htarget => ?_
    have hempty : (definitions document).own = [] := by
      cases document with
      | null => rfl
      | _ => cases hnull
    have hdef := Option.eq_some_of_filter_eq_some htarget
    unfold definition JsValue.property at hdef
    rw [hempty] at hdef
    dsimp only [List.lookup] at hdef
    split at hdef
    · cases hdef
      exact grounded_inherited name
    · cases hdef
  | false =>
    cases (definition document name).filter (!·.isFalsy) with
    | none => exact iff_of_true ⟨0, nofun⟩ nofun
    | some target =>
      show (∃ steps, walk es document steps target inst name ≠ .error .outOfSteps) ↔ _
      rw [walk_ends_iff]
      simp

end TypeScript
end IndieWorker
