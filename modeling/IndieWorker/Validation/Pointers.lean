import IndieWorker.Lib.JsonPointer
import IndieWorker.Validation.Verdict

/-!
# Where the violations point

The walk of the validator again, with each violation beside the place it is about:
the keys that lead there from the instance, and what the violated rule was applied
to.  A pointer is faithful when it evaluates to that.
-/

namespace IndieWorker
namespace Validation

open JsonPointer

/-! ## Instances as documents -/

def Value.view : Value → View Value
  | .array items => .items items
  | .object members => .members members
  | _ => .leaf

/-- No object of the value has two members of one name. -/
inductive Keyed : Value → Prop
  | null : Keyed .null
  | bool (b : Bool) : Keyed (.bool b)
  | number (n : Number) : Keyed (.number n)
  | string (s : String) : Keyed (.string s)
  | array {items : List Value} : (∀ item ∈ items, Keyed item) → Keyed (.array items)
  | object {members : Map} : members.keys.Nodup → (∀ member ∈ members, Keyed member.2) →
    Keyed (.object members)

/-- A parsed document, whose maps have one entry for each key. -/
structure Instance where
  value : Value
  keyed : Keyed value

/-! ## Pointers as the walk writes them -/

def pointerOf (path : List Key) : String := .ofList (render (path.map Key.token))

theorem escapePointer_eq (token : String) :
    escapePointer token = .ofList (escape token.toList) := by
  rw [escapePointer, escape, List.flatMap_assoc]
  congr 2
  funext c
  unfold escapeChar
  by_cases htilde : c = '~'
  · rw [if_pos htilde, if_pos htilde]
    rfl
  · rw [if_neg htilde, if_neg htilde, List.flatMap_singleton]

theorem pointerOf_concat (path : List Key) (key : Key) :
    pointerOf (path ++ [key]) = pointerOf path ++ "/" ++ .ofList (escape key.token) := by
  unfold pointerOf
  rw [List.map_append, render_append, String.ofList_append, String.append_assoc]
  congr 1
  show String.ofList ('/' :: escape key.token ++ []) = _
  rw [List.append_nil, String.ofList_cons]
  rfl

theorem pointerOf_member (path : List Key) (name : String) :
    pointerOf (path ++ [.member name]) = memberPointer (pointerOf path) name := by
  rw [pointerOf_concat, memberPointer, escapePointer_eq]
  rfl

theorem pointerOf_item (path : List Key) (i : Nat) :
    pointerOf (path ++ [.item i]) = itemPointer (pointerOf path) i := by
  rw [pointerOf_concat, itemPointer]
  congr 1
  show String.ofList (escape (Nat.toDigits 10 i)) = String.ofList (Nat.toDigits 10 i)
  rw [escape_toDigits]

/-- The pointer of a violation that is reported at a place. -/
def shown (here : String) : String := (Violation.new here "" "").pointer

theorem pointer_new (here rule message : String) :
    (Violation.new here rule message).pointer = shown here := rfl

/-! ## The walk, with the places -/

structure Report where
  violation : Violation
  path : List Key
  subject : Target Value

/-- A violation of a rule that was applied to the value at hand. -/
def Report.own (inst : Value) (path : List Key) (violation : Violation) : Report :=
  ⟨violation, path, .found inst⟩

section Walk

variable (host : Host) (child : Value → Value → String → List Violation)
  (childAt : Value → Value → List Key → List Report)

def itemsAt (map : Map) (items : List Value) (path : List Key) : List Report :=
  match map.get "items" with
  | some itemSchema =>
    items.zipIdx.flatMap fun (item, i) => childAt itemSchema item (path ++ [.item i])
  | none => []

def requiredAt (map object : Map) (path : List Key) : List Report :=
  match map.get "required" with
  | some (.array required) =>
    ((required.filterMap Value.asStr).filter fun name => (object.get name).isNone).map fun name =>
      ⟨.new (memberPointer (pointerOf path) name) "required" (name ++ " is required"),
        path ++ [.member name], .missing object name⟩
  | _ => []

def memberAt (map : Map) (name : String) (value : Value) (path : List Key) : List Report :=
  let at' := path ++ [.member name]
  match listed map name with
  | some childSchema => childAt childSchema value at'
  | none =>
    match map.get "additionalProperties" with
    | some (.bool false) =>
      [.own value at' (.new (memberPointer (pointerOf path) name) "additional-properties"
        (name ++ " is not an allowed property"))]
    | some other => childAt other value at'
    | none => []

/-- What the rules for the kind report of the instance itself. -/
def ownKind (map : Map) (inst : Value) (here : String) : List Violation :=
  match inst with
  | .string text => stringRules host map text here
  | .number n => numberRules host map n.asF64 here
  -- The children are silent here, so that the bounds on the length are left.
  | .array items => arrayRules (fun _ _ _ => []) map items here
  | _ => []

/-- What they report of its items and members. -/
def belowAt (map : Map) (inst : Value) (path : List Key) : List Report :=
  match inst with
  | .array items => itemsAt childAt map items path
  | .object object =>
    requiredAt map object path ++
      object.flatMap fun (name, value) => memberAt childAt map name value path
  | _ => []

def objectNodeAt (map : Map) (inst : Value) (path : List Key) : List Report :=
  let here := pointerOf path
  (unsupportedKeywords map here).map (.own inst path) ++
    match typeRule host map (kindOf inst) here with
    | some violation => [.own inst path violation]
    | none =>
      (constRule host map inst here ++ enumRule host map inst here).map (.own inst path) ++
        ((ownKind host map inst here).map (.own inst path) ++ belowAt childAt map inst path) ++
          (oneOfRule child map inst here).map (.own inst path)

/-- The violations of a node with their places. -/
def nodeAt (root : Value) : Nat → Value → Value → List Key → List Report
  | 0, schema, inst, path => (node host root 0 schema inst (pointerOf path)).map (.own inst path)
  | room + 1, schema, inst, path =>
    match schema with
    | .object _ =>
      match resolve schema root (pointerOf path) with
      | .ok (.object map) =>
        objectNodeAt host (node host root room) (nodeAt root room) map inst path
      | _ => (node host root (room + 1) schema inst (pointerOf path)).map (.own inst path)
    | _ => (node host root (room + 1) schema inst (pointerOf path)).map (.own inst path)

end Walk

/-- The reports behind a run of the validator. -/
def reports (host : Host) (root schema inst : Value) : List Report :=
  nodeAt host root (MAX_DEPTH + 1) schema inst []

/-! ## Rules report where they are applied -/

def ReportedAt (here : String) (out : List Violation) : Prop := ∀ v ∈ out, v.pointer = shown here

namespace ReportedAt

variable {host : Host} {map : Map} {inst : Value} {here : String} {out out' : List Violation}

theorem nil : ReportedAt here [] := List.forall_mem_nil _

theorem one (rule message : String) : ReportedAt here [.new here rule message] := by
  intro v hv
  rw [List.mem_singleton.mp hv, pointer_new]

theorem append (h : ReportedAt here out) (h' : ReportedAt here out') :
    ReportedAt here (out ++ out') :=
  List.forall_mem_append.mpr ⟨h, h'⟩

theorem unsupportedKeywords : ReportedAt here (unsupportedKeywords map here) := by
  intro v hv
  obtain ⟨key, _, rfl⟩ := List.mem_map.mp hv
  rfl

theorem typeRule {actual : String} : ReportedAt here (typeRule host map actual here).toList := by
  unfold Validation.typeRule
  dsimp only
  split
  · exact nil
  · split
    · split
      · exact nil
      · exact one _ _
    · split
      · exact nil
      · exact one _ _
    · exact one _ _

theorem constRule : ReportedAt here (constRule host map inst here) := by
  unfold Validation.constRule
  split
  · split
    · exact one _ _
    · exact nil
  · exact nil

theorem enumRule : ReportedAt here (enumRule host map inst here) := by
  unfold Validation.enumRule
  split
  · split
    · exact nil
    · exact one _ _
  · exact nil

theorem minRule {bound : Option UInt64} {length : Nat} (rule : String) (message : UInt64 → String) :
    ReportedAt here (minRule bound length fun n => .new here rule (message n)) := by
  unfold Validation.minRule
  split
  · split
    · exact one _ _
    · exact nil
  · exact nil

theorem maxRule {bound : Option UInt64} {length : Nat} (rule : String) (message : UInt64 → String) :
    ReportedAt here (maxRule bound length fun n => .new here rule (message n)) := by
  unfold Validation.maxRule
  split
  · split
    · exact one _ _
    · exact nil
  · exact nil

theorem patternRule {pattern text : String} :
    ReportedAt here (patternRule host pattern text here) := by
  unfold Validation.patternRule
  split
  · split
    · exact nil
    · exact one _ _
  · exact one _ _

theorem formatRule {format text : String} : ReportedAt here (formatRule format text here) := by
  unfold Validation.formatRule
  dsimp only
  split
  · exact one _ _
  · exact nil
  · exact one _ _

theorem stringRules {text : String} : ReportedAt here (stringRules host map text here) := by
  unfold Validation.stringRules
  refine append (append (append (minRule _ _) (maxRule _ _)) ?_) ?_
  · split
    · exact patternRule
    · exact nil
  · split
    · exact formatRule
    · exact nil

theorem numberRules {value : Binary64} : ReportedAt here (numberRules host map value here) := by
  unfold Validation.numberRules
  refine append ?_ ?_
  · split
    · split
      · exact one _ _
      · exact nil
    · exact nil
  · split
    · split
      · exact one _ _
      · exact nil
    · exact nil

/-- An array reports the bounds on its length, besides what its items report. -/
theorem arrayRules {items : List Value} :
    ReportedAt here (arrayRules (fun _ _ _ => []) map items here) := by
  unfold Validation.arrayRules
  refine append (append (minRule _ _) (maxRule _ _)) ?_
  split
  · rw [List.flatMap_eq_nil_iff.mpr fun _ _ => rfl]
    exact nil
  · exact nil

theorem oneOfRule {child : Value → Value → String → List Violation} :
    ReportedAt here (oneOfRule child map inst here) := by
  unfold Validation.oneOfRule
  split
  · dsimp only
    split
    · exact one _ _
    · exact nil
  · exact nil

end ReportedAt

/-! ## Both walks report the same -/

section Same

variable {host : Host} {child : Value → Value → String → List Violation}
  {childAt : Value → Value → List Key → List Report} {map : Map} {inst : Value} {path : List Key}

theorem map_own (out : List Violation) :
    (out.map (Report.own inst path)).map Report.violation = out := by
  rw [List.map_map]
  exact List.map_id out

theorem map_requiredAt (object : Map) :
    (requiredAt map object path).map Report.violation =
      requiredRule map object (pointerOf path) := by
  unfold requiredAt requiredRule
  rcases map.get "required" with _ | v
  · rfl
  · cases v with
    | array required =>
      dsimp only
      rw [List.map_map]
      rfl
    | _ => rfl

variable (hchild : ∀ s v p, (childAt s v p).map Report.violation = child s v (pointerOf p))
include hchild

theorem map_itemsAt (items : List Value) :
    arrayRules (fun _ _ _ => []) map items (pointerOf path) ++
        (itemsAt childAt map items path).map Report.violation =
      arrayRules child map items (pointerOf path) := by
  unfold itemsAt arrayRules
  rw [List.append_assoc]
  congr 1
  rcases map.get "items" with _ | schema
  · rfl
  · dsimp only
    rw [List.flatMap_eq_nil_iff.mpr fun _ _ => rfl, List.nil_append, List.map_flatMap]
    refine List.flatMap_congr fun item _ => ?_
    rw [hchild, pointerOf_item]

theorem map_memberAt (name : String) (value : Value) :
    (memberAt childAt map name value path).map Report.violation =
      memberRule child map name value (pointerOf path) := by
  unfold memberAt memberRule listed
  dsimp only
  rcases ((map.get "properties").bind Value.asObject).bind (Map.get · name) with _ | schema
  · rcases map.get "additionalProperties" with _ | v
    · rfl
    · cases v with
      | bool b =>
        cases b with
        | false => rfl
        | true =>
          dsimp only
          rw [hchild, pointerOf_member]
      | _ =>
        dsimp only
        rw [hchild, pointerOf_member]
  · dsimp only
    rw [hchild, pointerOf_member]

theorem map_belowAt : ownKind host map inst (pointerOf path) ++
    (belowAt childAt map inst path).map Report.violation =
      kindRules host child map inst (pointerOf path) := by
  cases inst with
  | array items => exact map_itemsAt hchild items
  | object object =>
    show [] ++ List.map Report.violation (_ ++ _) = objectRules child map object (pointerOf path)
    rw [List.nil_append, List.map_append, map_requiredAt, List.map_flatMap, objectRules]
    congr 1
    exact List.flatMap_congr fun member _ => map_memberAt hchild _ _
  | _ => exact List.append_nil _

theorem map_objectNodeAt : (objectNodeAt host child childAt map inst path).map Report.violation =
    objectNode host child map inst (pointerOf path) := by
  unfold objectNodeAt objectNode
  dsimp only
  rw [List.map_append, map_own]
  congr 1
  rcases typeRule host map (kindOf inst) (pointerOf path) with _ | violation
  · dsimp only
    rw [← map_belowAt hchild]
    simp only [List.map_append, map_own]
  · rfl

end Same

/-- The reports carry the violations of the node, in their order. -/
theorem map_nodeAt {host : Host} {root : Value} {room : Nat} {schema inst : Value}
    {path : List Key} : (nodeAt host root room schema inst path).map Report.violation =
      node host root room schema inst (pointerOf path) := by
  induction room generalizing schema inst path with
  | zero => exact map_own _
  | succ room ih =>
    cases schema with
    | object members =>
      unfold nodeAt
      dsimp only
      split
      · next map hmap =>
        have hchild : ∀ s v p, (nodeAt host root room s v p).map Report.violation =
            node host root room s v (pointerOf p) := fun s v p => ih
        rw [map_objectNodeAt hchild, node, hmap]
      · exact map_own _
    | _ => exact map_own _

/-! ## What a node reports of itself -/

section Own

variable (host : Host) (child : Value → Value → String → List Violation) (map : Map) (inst : Value)

/-- The violations of a node that are not about an item or a member. -/
def ownObject (here : String) : List Violation :=
  unsupportedKeywords map here ++
    match typeRule host map (kindOf inst) here with
    | some violation => [violation]
    | none =>
      constRule host map inst here ++ enumRule host map inst here ++ ownKind host map inst here ++
        oneOfRule child map inst here

variable {host child map inst} {childAt : Value → Value → List Key → List Report}
  {path : List Key} {r : Report} {here : String}

theorem mem_objectNodeAt : r ∈ objectNodeAt host child childAt map inst path ↔
    r ∈ (ownObject host child map inst (pointerOf path)).map (Report.own inst path) ∨
      typeRule host map (kindOf inst) (pointerOf path) = none ∧
        r ∈ belowAt childAt map inst path := by
  unfold objectNodeAt ownObject
  dsimp only
  rcases typeRule host map (kindOf inst) (pointerOf path) with _ | violation
  · simp only [List.map_append, List.mem_append, true_and]
    tauto
  · simp only [List.map_append, List.mem_append, reduceCtorEq, false_and, or_false]
    rfl

theorem reportedAt_ownKind : ReportedAt here (ownKind host map inst here) := by
  cases inst with
  | string text => exact .stringRules
  | number n => exact .numberRules
  | array items => exact .arrayRules
  | _ => exact .nil

theorem reportedAt_ownObject : ReportedAt here (ownObject host child map inst here) := by
  refine .append .unsupportedKeywords ?_
  have htype : ReportedAt here (typeRule host map (kindOf inst) here).toList := .typeRule
  generalize typeRule host map (kindOf inst) here = found at htype ⊢
  rcases found with _ | violation
  · exact .append (.append (.append .constRule .enumRule) reportedAt_ownKind) .oneOfRule
  · exact htype

/-- The rules for the kind that are about the instance itself. -/
def OwnKindOk (u : Unicode) (map : Map) (inst : Value) : Prop :=
  match inst with
  | .string text => StringOk u map text
  | .number n => NumberOk map n.asF64
  | .array items => LengthOk map "minItems" "maxItems" items.length
  | _ => True

/-- The rules that are about the instance itself, with a verdict for the branches of
`oneOf`. -/
structure OwnStep (R : Value → Value → Prop) (u : Unicode) (map : Map) (inst : Value) : Prop where
  keys : KnownKeys map
  type : typeHolds map (kindOf inst) = true
  const : ConstOk map inst
  enum : EnumOk map inst
  kind : OwnKindOk u map inst
  oneOf : OneOfOk R map inst

theorem ownKind_eq_nil : ownKind host map inst here = [] ↔ OwnKindOk host.toUnicode map inst := by
  cases inst with
  | string text => exact stringRules_eq_nil
  | number n => exact numberRules_eq_nil
  | array items =>
    refine (arrayRules_eq_nil (R := fun _ _ => True) fun _ _ _ => iff_of_true rfl trivial).trans ?_
    exact and_iff_left fun _ _ _ _ => trivial
  | _ => exact iff_of_true rfl trivial

theorem ownObject_eq_nil {R : Value → Value → Prop} (hchild : ∀ s v p, child s v p = [] ↔ R s v) :
    ownObject host child map inst here = [] ↔ OwnStep R host.toUnicode map inst := by
  refine typed_eq_nil.trans ?_
  simp only [List.append_eq_nil_iff, constRule_eq_nil, enumRule_eq_nil, ownKind_eq_nil,
    oneOfRule_eq_nil hchild]
  constructor
  · intro hand
    obtain ⟨hkeys, htype, ⟨⟨hconst, henum⟩, hkind⟩, hone⟩ := hand
    exact ⟨hkeys, htype, hconst, henum, hkind, hone⟩
  · exact fun h => ⟨h.keys, h.type, ⟨⟨h.const, h.enum⟩, h.kind⟩, h.oneOf⟩

end Own

/-! ## Reports stand where they say -/

/-- A report about the value at `path` or one below it, with the pointer to its place. -/
structure Placed (inst : Value) (path : List Key) (r : Report) : Prop where
  below : path <+: r.path
  pointer : r.violation.pointer = shown (pointerOf r.path)
  reaches : Reaches Value.view inst r.path r.subject

theorem Placed.up {inst : Value} {path : List Key} {key : Key} {r : Report}
    (h : Placed inst (path ++ [key]) r) : Placed inst path r :=
  ⟨(List.prefix_append path [key]).trans h.below, h.pointer, h.reaches⟩

section Places

variable {host : Host} {child : Value → Value → String → List Violation}
  {childAt : Value → Value → List Key → List Report} {map : Map} {inst v : Value}
  {path : List Key} {r : Report}

theorem placed_own (hreaches : Reaches Value.view inst path (.found v)) {out : List Violation}
    (hout : ReportedAt (pointerOf path) out) (hr : r ∈ out.map (Report.own v path)) :
    Placed inst path r := by
  obtain ⟨violation, hviolation, rfl⟩ := List.mem_map.mp hr
  exact ⟨List.prefix_refl path, hout violation hviolation, hreaches⟩

theorem placed_requiredAt {object : Map}
    (hreaches : Reaches Value.view inst path (.found (.object object)))
    (hr : r ∈ requiredAt map object path) : ∃ key, Placed inst (path ++ [key]) r := by
  unfold requiredAt at hr
  split at hr
  · obtain ⟨name, hname, rfl⟩ := List.mem_map.mp hr
    have hnone : object.get name = none := by simpa using (List.mem_filter.mp hname).2
    refine ⟨.member name, List.prefix_refl _, ?_, hreaches.trans (.missing rfl hnone)⟩
    rw [pointer_new, pointerOf_member]
  · cases hr

variable (hchild : ∀ s w p, Keyed w → Reaches Value.view inst p (.found w) →
  ∀ r ∈ childAt s w p, Placed inst p r)
include hchild

theorem placed_itemsAt {items : List Value} (hkeyed : ∀ item ∈ items, Keyed item)
    (hreaches : Reaches Value.view inst path (.found (.array items)))
    (hr : r ∈ itemsAt childAt map items path) : ∃ key, Placed inst (path ++ [key]) r := by
  unfold itemsAt at hr
  split at hr
  · obtain ⟨⟨item, i⟩, hitem, hr⟩ := List.mem_flatMap.mp hr
    have hget : items[i]? = some item := List.mem_zipIdx_iff_getElem?.mp hitem
    refine ⟨.item i, hchild _ item _ (hkeyed item (List.mem_of_getElem? hget)) ?_ r hr⟩
    exact hreaches.trans (.item rfl hget (.here item))
  · cases hr

theorem placed_memberAt {object : Map} (hnodup : object.keys.Nodup)
    (hkeyed : ∀ member ∈ object, Keyed member.2)
    (hreaches : Reaches Value.view inst path (.found (.object object))) {member : String × Value}
    (hmember : member ∈ object) (hr : r ∈ memberAt childAt map member.1 member.2 path) :
    ∃ key, Placed inst (path ++ [key]) r := by
  have hlookup : object.lookup member.1 = some member.2 :=
    (lookup_eq_some_iff hnodup).mpr hmember
  have hthere : Reaches Value.view inst (path ++ [.member member.1]) (.found member.2) :=
    hreaches.trans (.member rfl hlookup (.here _))
  refine ⟨.member member.1, ?_⟩
  unfold memberAt at hr
  dsimp only at hr
  split at hr
  · exact hchild _ _ _ (hkeyed member hmember) hthere r hr
  · split at hr
    · have hout : ReportedAt (pointerOf (path ++ [.member member.1]))
          [.new (memberPointer (pointerOf path) member.1) "additional-properties"
            (member.1 ++ " is not an allowed property")] := by
        rw [pointerOf_member]
        exact .one _ _
      exact placed_own hthere hout hr
    · exact hchild _ _ _ (hkeyed member hmember) hthere r hr
    · cases hr

theorem placed_belowAt (hkeyed : Keyed v) (hreaches : Reaches Value.view inst path (.found v))
    (hr : r ∈ belowAt childAt map v path) : ∃ key, Placed inst (path ++ [key]) r := by
  cases hkeyed with
  | array hitems => exact placed_itemsAt hchild hitems hreaches hr
  | object hnodup hmembers =>
    rcases List.mem_append.mp hr with hr | hr
    · exact placed_requiredAt hreaches hr
    · obtain ⟨member, hmember, hr⟩ := List.mem_flatMap.mp hr
      exact placed_memberAt hchild hnodup hmembers hreaches hmember hr
  | _ => cases hr

theorem placed_objectNodeAt (hkeyed : Keyed v)
    (hreaches : Reaches Value.view inst path (.found v))
    (hr : r ∈ objectNodeAt host child childAt map v path) : Placed inst path r := by
  rcases mem_objectNodeAt.mp hr with hr | ⟨_, hr⟩
  · exact placed_own hreaches reportedAt_ownObject hr
  · obtain ⟨_, hplaced⟩ := placed_belowAt hchild hkeyed hreaches hr
    exact hplaced.up

end Places

section Node

variable {host : Host} {root : Value} {room : Nat} {schema v : Value} {inst : Value}
  {path : List Key} {here : String}

theorem reportedAt_of_resolve_error {violation : Violation}
    (h : resolve schema root here = .error violation) : ReportedAt here [violation] := by
  unfold resolve at h
  split at h
  · cases h
  · split at h
    · cases h
      exact .one _ _
    · split at h
      · cases h
      · cases h
        exact .one _ _

theorem target_of_resolve {t : Except Violation Value} (h : resolve schema root here = t) :
    target root schema = t.toOption := by
  rw [← h]
  exact toOption_resolve.symm

/-- A node works with an object, or it reports at its own place only. -/
theorem nodeAt_cases (host : Host) (root : Value) (room : Nat) (schema v : Value)
    (path : List Key) : (∃ members map, schema = .object members ∧
      resolve schema root (pointerOf path) = .ok (.object map) ∧
        nodeAt host root (room + 1) schema v path =
          objectNodeAt host (node host root room) (nodeAt host root room) map v path) ∨
    ((∀ members map, schema = .object members → target root schema ≠ some (.object map)) ∧
      ReportedAt (pointerOf path) (node host root (room + 1) schema v (pointerOf path)) ∧
        nodeAt host root (room + 1) schema v path =
          (node host root (room + 1) schema v (pointerOf path)).map (.own v path)) := by
  cases schema with
  | object members =>
    rw [nodeAt, node]
    rcases hresolve : resolve (.object members) root (pointerOf path) with violation | t
    · refine .inr ⟨fun _ map _ htarget => ?_, reportedAt_of_resolve_error hresolve, rfl⟩
      rw [target_of_resolve hresolve] at htarget
      cases htarget
    · cases t with
      | object map => exact .inl ⟨members, map, rfl, rfl, rfl⟩
      | _ =>
        refine .inr ⟨fun _ map _ htarget => ?_, .one _ _, rfl⟩
        rw [target_of_resolve hresolve] at htarget
        cases htarget
  | bool b =>
    cases b with
    | false => exact .inr ⟨fun _ _ h => (by cases h), .one _ _, rfl⟩
    | true => exact .inr ⟨fun _ _ h => (by cases h), .nil, rfl⟩
  | _ => exact .inr ⟨fun _ _ h => (by cases h), .one _ _, rfl⟩

/-- Every report of a node stands where it says. -/
theorem placed_nodeAt (hkeyed : Keyed v) (hreaches : Reaches Value.view inst path (.found v)) :
    ∀ r ∈ nodeAt host root room schema v path, Placed inst path r := by
  induction room generalizing schema v path with
  | zero => exact fun r hr => placed_own hreaches (.one _ _) hr
  | succ room ih =>
    intro r hr
    rcases nodeAt_cases host root room schema v path with ⟨_, map, _, _, hnode⟩ |
      ⟨_, hreported, hnode⟩
    · rw [hnode] at hr
      exact placed_objectNodeAt (fun s w p hw hp => ih hw hp) hkeyed hreaches hr
    · rw [hnode] at hr
      exact placed_own hreaches hreported hr

/-- The instance meets the rules that the schema applies to it itself: only its items
and members are left to report. -/
def RootOk (host : Host) (root : Value) (room : Nat) (schema inst : Value) : Prop :=
  match schema with
  | .bool b => b = true
  | .object members =>
    match target root (.object members) with
    | some (.object map) => OwnStep (accepts host root room) host.toUnicode map inst
    | _ => False
  | _ => False

theorem rootOk_of_target {members map : Map}
    (h : target root (.object members) = some (.object map)) :
    RootOk host root room (.object members) v ↔
      OwnStep (accepts host root room) host.toUnicode map v := by
  unfold RootOk
  dsimp only
  rw [h]

theorem rootOk_iff_step
    (h : ∀ members map, schema = .object members → target root schema ≠ some (.object map)) :
    RootOk host root room schema v ↔
      Step host.toUnicode root (accepts host root room) schema v := by
  cases schema with
  | object members =>
    unfold RootOk Step
    dsimp only
    rcases htarget : target root (.object members) with _ | t
    · exact Iff.rfl
    · cases t with
      | object map => exact absurd htarget (h members map rfl)
      | _ => exact Iff.rfl
  | _ => exact Iff.rfl

/-- A node reports nothing at its own place when the rules hold that are about it. -/
theorem path_ne_nil_iff (hkeyed : Keyed v) :
    (∀ r ∈ nodeAt host root (room + 1) schema v [], r.path ≠ []) ↔
      RootOk host root room schema v := by
  have hown : ∀ out : List Violation,
      (∀ r ∈ out.map (Report.own v []), r.path ≠ []) ↔ out = [] := by
    intro out
    constructor
    · intro h
      refine List.eq_nil_iff_forall_not_mem.mpr fun violation hmem => ?_
      exact h _ (List.mem_map_of_mem hmem) rfl
    · intro h
      rw [h]
      exact List.forall_mem_nil _
  rcases nodeAt_cases host root room schema v [] with ⟨members, map, rfl, hresolve, hnode⟩ |
    ⟨hnone, _, hnode⟩
  · have hroot : RootOk host root room (.object members) v ↔
        OwnStep (accepts host root room) host.toUnicode map v := by
      unfold RootOk
      dsimp only
      rw [target_of_resolve hresolve]
      exact Iff.rfl
    have hobject : ownObject host (node host root room) map v (pointerOf []) = [] ↔
        OwnStep (accepts host root room) host.toUnicode map v :=
      ownObject_eq_nil fun _ _ _ => node_eq_nil_iff
    rw [hroot, ← hobject, ← hown, hnode]
    constructor
    · exact fun h r hr => h r (mem_objectNodeAt.mpr (.inl hr))
    · intro h r hr
      rcases mem_objectNodeAt.mp hr with hr | ⟨_, hr⟩
      · exact h r hr
      · obtain ⟨key, hplaced⟩ := placed_belowAt
          (fun s w p hw hp => placed_nodeAt hw hp) hkeyed (.here v) hr
        intro hnil
        have hprefix := hplaced.below
        rw [hnil, List.prefix_nil] at hprefix
        exact List.cons_ne_nil _ _ hprefix
  · have hstep : node host root (room + 1) schema v (pointerOf []) = [] ↔
        Step host.toUnicode root (accepts host root room) schema v :=
      node_eq_nil_iff_step fun _ _ _ => node_eq_nil_iff
    rw [hnode, hown, rootOk_iff_step hnone, hstep]

end Node

/-! ## Pointers are faithful below the root -/

/-- The pointer evaluates to what the violated rule was applied to. -/
def Report.Faithful (inst : Value) (r : Report) : Prop :=
  evaluate Value.view r.violation.pointer.toList inst = r.subject

structure PointersExact (inst : Value) (out : List Report) : Prop where
  faithful : ∀ r ∈ out, r.Faithful inst
  distinct : ∀ r ∈ out, ∀ r' ∈ out, r.path ≠ r'.path →
    r.violation.pointer ≠ r'.violation.pointer

section Faithful

variable {inst : Value} {r r' : Report}

theorem shown_pointerOf {path : List Key} (h : path ≠ []) :
    (shown (pointerOf path)).toList = render (path.map Key.token) := by
  have hne : (pointerOf path).isEmpty = false := by
    rw [Bool.eq_false_iff, ne_eq, String.isEmpty_iff, pointerOf, String.ofList_eq_empty_iff,
      render_eq_nil_iff, List.map_eq_nil_iff]
    exact h
  rw [shown, Violation.new, hne, if_neg Bool.false_ne_true]
  exact String.toList_ofList

/-- The pointer of the root names a member of it, or nothing. -/
theorem evaluate_slash (inst : Value) :
    evaluate Value.view (shown (pointerOf [])).toList inst ≠ .found inst := by
  have hslash : (shown (pointerOf [])).toList = render [[]] := rfl
  rw [hslash, evaluate, parse_render]
  dsimp only
  intro h
  cases inst with
  | array items =>
    rw [walk] at h
    simp [Value.view, arrayIndex] at h
  | object members =>
    rw [walk] at h
    dsimp only [Value.view] at h
    rcases hlookup : members.lookup (String.ofList []) with _ | w
    · rw [hlookup] at h
      cases h
    · -- A member is smaller than the object it is in.
      rw [hlookup] at h
      have hself : w = .object members := Target.found.inj h
      have hmember := List.sizeOf_lt_of_mem (Map.mem_of_get hlookup)
      rw [hself] at hmember
      simp only [Prod.mk.sizeOf_spec, Value.object.sizeOf_spec] at hmember
      omega
  | _ => cases h

theorem Placed.faithful_iff (h : Placed inst [] r) : r.Faithful inst ↔ r.path ≠ [] := by
  constructor
  · intro hfaithful hnil
    have hreaches := h.reaches
    rw [Report.Faithful, h.pointer, hnil] at hfaithful
    rw [hnil] at hreaches
    generalize r.subject = subject at hfaithful hreaches
    cases hreaches
    exact evaluate_slash inst hfaithful
  · intro hne
    rw [Report.Faithful, h.pointer, shown_pointerOf hne]
    exact h.reaches.evaluate_eq

theorem Placed.pointer_ne (h : Placed inst [] r) (h' : Placed inst [] r') (hne : r.path ≠ [])
    (hne' : r'.path ≠ []) (hpath : r.path ≠ r'.path) :
    r.violation.pointer ≠ r'.violation.pointer := by
  intro heq
  have hrender := congrArg String.toList heq
  rw [h.pointer, h'.pointer, shown_pointerOf hne, shown_pointerOf hne'] at hrender
  exact hpath (h.reaches.render_inj h'.reaches hrender)

end Faithful

theorem pointersExact_iff {host : Host} {root schema : Value} (inst : Instance) :
    PointersExact inst.value (reports host root schema inst.value) ↔
      RootOk host root MAX_DEPTH schema inst.value := by
  have hplaced : ∀ r ∈ reports host root schema inst.value, Placed inst.value [] r :=
    placed_nodeAt inst.keyed (.here _)
  have hroot : (∀ r ∈ reports host root schema inst.value, r.path ≠ []) ↔
      RootOk host root MAX_DEPTH schema inst.value := path_ne_nil_iff inst.keyed
  rw [← hroot]
  constructor
  · exact fun h r hr => (hplaced r hr).faithful_iff.mp (h.faithful r hr)
  · intro h
    refine ⟨fun r hr => (hplaced r hr).faithful_iff.mpr (h r hr), fun r hr r' hr' hpath => ?_⟩
    exact (hplaced r hr).pointer_ne (hplaced r' hr') (h r hr) (h r' hr') hpath

/-- For every schema and instance, the pointers of the violations are faithful and tell
their places apart exactly when the instance meets the rules that are about it itself. -/
theorem pointers_exact_iff (host : Host) (inst : Instance) :
    (∀ schema, validate host schema inst.value =
        report ((reports host schema schema inst.value).map Report.violation) ∧
      (PointersExact inst.value (reports host schema schema inst.value) ↔
        RootOk host schema MAX_DEPTH schema inst.value)) ∧
    ∀ document name, match definition document name with
      | some schema => validateDef host document name inst.value =
          report ((reports host document schema inst.value).map Report.violation) ∧
        (PointersExact inst.value (reports host document schema inst.value) ↔
          RootOk host document MAX_DEPTH schema inst.value)
      | none => validateDef host document name inst.value =
          .error [.new "" "unknown-definition" ("schema has no $defs/" ++ name)] := by
  refine ⟨fun schema => ⟨?_, pointersExact_iff inst⟩, fun document name => ?_⟩
  · rw [reports, map_nodeAt]
    rfl
  · unfold validateDef
    rcases definition document name with _ | schema
    · rfl
    · refine ⟨?_, pointersExact_iff inst⟩
      rw [reports, map_nodeAt]
      rfl

/-- A violation of the root is reported at the member with the empty name. -/
theorem root_reported_at_a_member : ¬ ∀ (host : Host) (schema : Value) (inst : Instance),
    PointersExact inst.value (reports host schema schema inst.value) := by
  intro h
  have hroot := (pointersExact_iff ⟨.null, .null⟩).mp
    (h .ascii (.object [("type", .string "object")]) ⟨.null, .null⟩)
  rw [rootOk_of_target (target_of_no_ref (by decide +kernel))] at hroot
  exact absurd hroot.type (by decide +kernel)

end Validation
end IndieWorker
