import IndieWorker.TypeScript.Alike

/-!
# Where the two validators agree

A document is accepted by both validators or by neither, if the two read alike
what they meet: every reference leads both to the same keywords, `const` and
`enum` find the same values on both sides, the counts that Rust passes over are
kept anyway, patterns stand for the same characters, and no chain of applications
is longer than the Rust limit.
-/

namespace IndieWorker
namespace TypeScript

open Validation Findings

section References

variable {root schema : Value} {root' schema' : JsValue} {map : Map}

/-- A definition is there in both languages or in neither. -/
theorem definition_cases (hroot : Reads root root') (hdoc : SupportedDocument root)
    (name : String) :
    (Validation.definition root name = none ∧ definition root' name =
        if name ∈ INHERITED then some (inherited name) else none) ∨
      ∃ s s', Validation.definition root name = some s ∧ definition root' name = some s' ∧
        Reads s s' := by
  have hnone : definitions root' = .object [] → definition root' name =
      if name ∈ INHERITED then some (inherited name) else none := by
    intro hempty
    rw [definition, hempty]
    simp [JsValue.property, JsValue.own, JsValue.inherits]
  cases hdoc.document with
  | bool b =>
    cases hroot
    exact Or.inl ⟨rfl, hnone rfl⟩
  | @object map hwf hpattern hsubschemas =>
    show (((map.get "$defs").bind (Value.get · name)) = none ∧ _) ∨
      ∃ s s', (map.get "$defs").bind (Value.get · name) = some s ∧ _
    rcases hroot.keyword "$defs" with ⟨hget, hget'⟩ | ⟨v, v', hget, hget', hreads⟩
    · rw [hget]
      exact Or.inl ⟨rfl, hnone (by rw [definitions, hget'])⟩
    · obtain ⟨defs, hdefs⟩ := Option.isSome_iff_exists.mp (hdoc.defs v hget)
      obtain rfl := Value.asObject_eq_some.mp hdefs
      have hown : definitions root' = v' := by
        rw [definitions, hget']
        cases hreads
        rfl
      rw [hget, definition, hown]
      rcases hreads.keyword name with ⟨hnot, hnot'⟩ | ⟨s, s', hs, hs', hss⟩
      · rw [hnot']
        refine Or.inl ⟨hnot, ?_⟩
        cases hreads
        simp [JsValue.inherits]
      · rw [hs']
        exact Or.inr ⟨s, s', hs, rfl, hss⟩

/-- What is no reference is what both sides work with. -/
theorem deref_of_not_isAlias (h : ¬ IsAlias (.object map)) (hreads : Reads (.object map) schema')
    (pointer : String) (hops : Nat) : deref root' pointer hops schema' = .ok schema' := by
  rw [deref.eq_def]
  dsimp only
  rcases hreads.keyword "$ref" with ⟨-, hget'⟩ | ⟨v, v', hget, hget', hv⟩
  · rw [hget']
  · rw [hget']
    cases hv with
    | string => exact absurd ⟨_, hget⟩ h
    | _ => rfl

/-- One hop of a reference that is written as the expression demands. -/
theorem deref_reference {reference : String}
    (hget : schema'.property "$ref" = some (.string reference)) (pointer : String) :
    deref root' pointer MAX_HOPS schema' =
      match refName reference with
      | none =>
        .error ⟨pointer, "unsupported-ref", "only #/$defs/<Name> is supported, got " ++ reference⟩
      | some name =>
        match (definition root' name).filter (!·.isFalsy) with
        | none =>
          .error ⟨pointer, "unknown-definition", "$ref points at missing $defs/" ++ name⟩
        | some target => deref root' pointer 16 target := by
  rw [deref.eq_def]
  dsimp only
  rw [hget]
  rfl

/-- A reference to nothing that counts as a definition ends in a violation. -/
theorem deref_lost {reference name : String}
    (hget : schema'.property "$ref" = some (.string reference))
    (hfront : stripPrefix "#/$defs/" reference = some name)
    (hnone : (definition root' name).filter (!·.isFalsy) = none) (pointer : String) :
    ∃ violation, deref root' pointer MAX_HOPS schema' = .error violation := by
  rw [deref_reference hget, refName, hfront]
  by_cases hname : isDefName name = true
  · rw [Option.filter_some_pos hname]
    dsimp only
    rw [hnone]
    exact ⟨_, rfl⟩
  · rw [Option.filter_some_neg (Bool.eq_false_of_not_eq_true hname)]
    exact ⟨_, rfl⟩

/-- A reference to an object that is no reference is followed to it. -/
theorem deref_found {reference name : String} {own : Map} {node : JsValue}
    (hget : schema'.property "$ref" = some (.string reference))
    (hfront : stripPrefix "#/$defs/" reference = some name) (hname : isDefName name = true)
    (hdef : definition root' name = some node)
    (hreads : Reads (.object own) node) (hplain : ¬ IsAlias (.object own)) (pointer : String) :
    deref root' pointer MAX_HOPS schema' = .ok node := by
  have hfound : (definition root' name).filter (!·.isFalsy) = some node := by
    rw [hdef]
    cases hreads
    rfl
  rw [deref_reference hget, refName, hfront, Option.filter_some_pos hname]
  dsimp only
  rw [hfound]
  exact deref_of_not_isAlias hplain hreads pointer 16

/-- At a reference read alike, both sides work with the same keywords or with none. -/
theorem node_of_refAlike (hroot : Reads root root') (hdoc : SupportedDocument root)
    (hmap : Supported (.object map)) (hreads : Reads (.object map) schema')
    (halike : ∀ reference, map.get "$ref" = some (.string reference) → RefAlike root reference) :
    (∃ own node, target root (.object map) = some (.object own) ∧
        (∀ pointer, deref root' pointer MAX_HOPS schema' = .ok node) ∧
        Reads (.object own) node ∧ Supported (.object own)) ∨
      (∀ own, target root (.object map) ≠ some (.object own)) ∧
        ∀ pointer, ∃ violation, deref root' pointer MAX_HOPS schema' = .error violation := by
  by_cases hself : IsAlias (.object map)
  · obtain ⟨reference, hget⟩ := hself
    have href := halike reference hget
    have hget' : schema'.property "$ref" = some (.string reference) := by
      rcases hreads.keyword "$ref" with ⟨hnone, -⟩ | ⟨v, v', hsome, hsome', hv⟩
      · cases hnone.symm.trans hget
      · cases hsome.symm.trans hget
        cases hv
        exact hsome'
    rw [target_of_string hget]
    rcases hfront : stripPrefix "#/$defs/" reference with _ | name
    · refine Or.inr ⟨nofun, fun pointer => ?_⟩
      rw [deref_reference hget', refName, hfront]
      exact ⟨_, rfl⟩
    · rw [Option.bind_some]
      have href := href name (stripPrefix_eq_some_iff.mp hfront)
      rcases definition_cases hroot hdoc name with ⟨hnone, hnone'⟩ | ⟨s, s', hsome, hsome', hs⟩
      · rw [hnone] at href ⊢
        refine Or.inr ⟨nofun, deref_lost hget' hfront ?_⟩
        rw [hnone', if_neg href]
        rfl
      · rw [hsome] at href ⊢
        cases hdoc.definitions name s hsome with
        | bool b =>
          cases hs
          refine Or.inr ⟨nofun, deref_lost hget' hfront ?_⟩
          rw [hsome', show b = false from href]
          rfl
        | @object own hwf hstring hsubschemas =>
          obtain ⟨hname, hplain⟩ := href
          exact Or.inl ⟨own, s', rfl, deref_found hget' hfront hname hsome' hs hplain, hs,
            .object hwf hstring hsubschemas⟩
  · exact Or.inl ⟨map, schema', target_of_not_isAlias hself,
      fun pointer => deref_of_not_isAlias hself hreads pointer MAX_HOPS, hreads, hmap⟩

end References

section Walk

variable {host : Host} {es : EcmaScript} {document inst schema part : Json} {below : Bool}

/-- What both sides apply is among the applications of the Rust walk. -/
theorem Applies.mem_applications {map : Map} {node : JsValue} {branch : Bool} {s v : Json}
    (h : Applies map node branch part s v) : (s.value, v.value) ∈ applications map part.value := by
  cases h with
  | item hget _ hpart _ hmem =>
    refine List.mem_append_left _ ?_
    rw [hpart, kindApplications, hget]
    exact List.mem_map_of_mem (List.of_mem_zip hmem).1
  | property hlisted _ hpart _ hmem _ =>
    refine List.mem_append_left _ ?_
    rw [hpart]
    refine List.mem_filterMap.mpr ⟨_, hmem, ?_⟩
    unfold memberSchema
    dsimp only
    rw [hlisted]
    rfl
  | additional hlisted hget hne _ hpart _ hmem _ =>
    refine List.mem_append_left _ ?_
    rw [hpart]
    refine List.mem_filterMap.mpr ⟨_, hmem, ?_⟩
    unfold memberSchema
    dsimp only
    rw [hlisted, hget]
    dsimp only
    split
    · next heq => exact absurd (Option.some.inj heq) hne
    · rfl
  | branch hget _ hmem =>
    refine List.mem_append_right _ ?_
    rw [oneOfApplications, hget]
    exact List.mem_map_of_mem (List.of_mem_zip hmem).1

/-- A node that both sides work with stands in a schema of the subset. -/
theorem Node.supported {map : Map} {node : JsValue} (hdoc : SupportedDocument document.value)
    (hschema : Supported schema.value) (h : Node document schema map node) :
    Supported (.object map) := by
  have htarget := h.1
  cases hvalue : schema.value with
  | object members =>
    rw [hvalue] at hschema htarget
    by_cases hself : IsAlias (.object members)
    · obtain ⟨reference, hget⟩ := hself
      rw [target_of_string hget] at htarget
      obtain ⟨name, -, hdef⟩ := Option.bind_eq_some_iff.mp htarget
      exact hdoc.definitions name _ hdef
    · rw [target_of_not_isAlias hself] at htarget
      cases htarget
      exact hschema
  | _ =>
    rw [hvalue] at htarget
    cases htarget

theorem Node.mem_applied {map : Map} {node : JsValue} {branch : Bool} {s v : Json}
    (h : Node document schema map node)
    (htype : typeHolds map (Validation.kindOf part.value) = true)
    (happlies : Applies map node branch part s v) :
    (s.value, v.value) ∈ applied document.value schema.value part.value := by
  have htarget := h.1
  cases hvalue : schema.value with
  | object members =>
    rw [hvalue] at htarget
    unfold applied
    dsimp only
    rw [htarget]
    dsimp only
    rw [if_pos htype]
    exact happlies.mem_applications
  | _ =>
    rw [hvalue] at htarget
    cases htarget

/-- What is met lies in the subset. -/
theorem Met.supported (hdoc : SupportedDocument document.value)
    (h : Met document inst below schema part) : Supported schema.value := by
  induction h with
  | document => exact hdoc.document
  | application _ hnode _ happlies ih =>
    cases hnode.supported hdoc ih with
    | object _ _ hsubschemas =>
      exact hsubschemas _ (applications_subset happlies.mem_applications)

/-- Wherever both walks arrive, with room and steps for what is left of the chain,
the one decides the verdict of the other. -/
theorem walk_decides (hdoc : SupportedDocument document.value)
    (halike : ∀ below s v, Met document inst below s v →
      Alike host.toUnicode es document below s v) {n : Nat}
    {room steps : Nat} (hmet : Met document inst below schema part)
    (hwithin : Within document.value n schema.value part.value) (hroom : n < room)
    (hsteps : n < steps) (pointer : String) :
    Decides below (walk es document.js steps schema.js part.js pointer)
      (accepts host document.value room schema.value part.value) := by
  induction n using Nat.strongRecOn generalizing below schema part room steps pointer with
  | _ n ih =>
    obtain ⟨room, rfl⟩ := Nat.exists_eq_add_of_lt hroom
    obtain ⟨steps, rfl⟩ := Nat.exists_eq_add_of_lt hsteps
    -- the parts of a node that both sides work with
    have hparts : ∀ map node, Node document schema map node →
        typeHolds map (Validation.kindOf part.value) = true →
        ∀ branch s v, Applies map node branch part s v →
        ∀ pointer, Decides (branch || below) (walk es document.js (n + steps) s.js v.js pointer)
          (accepts host document.value (n + room) s.value v.value) := by
      intro map node hnode htype branch s v happlies
      obtain ⟨m, rfl, hm⟩ := hwithin.child (hnode.mem_applied htype happlies)
      exact ih m (Nat.lt_succ_self m) (hmet.application hnode htype happlies) hm (by omega)
        (by omega)
    have htrue : ∀ map node, Node document schema map node →
        typeHolds map (Validation.kindOf part.value) = true →
        ∀ s v, Applies map node false part s v → s.value = .bool true →
        accepts host document.value (n + room) s.value v.value := by
      intro map node hnode htype s v happlies hs
      obtain ⟨m, rfl, -⟩ := hwithin.child (hnode.mem_applied htype happlies)
      rw [hs, Nat.add_right_comm, accepts_bool_iff]
    have hsupported := hmet.supported hdoc
    obtain ⟨href, hkeywords⟩ := halike below schema part hmet
    obtain ⟨value, js, hreads⟩ := schema
    dsimp only at hsupported href hreads ⊢
    cases hsupported with
    | bool b =>
      cases hreads
      rw [accepts_bool_iff]
      cases b with
      | true => exact decides_ok (by simp)
      | false => exact decides_ok (by simp)
    | @object map hwf hstring hsubschemas =>
      rcases node_of_refAlike document.reads hdoc (.object hwf hstring hsubschemas) hreads href with
        ⟨own, node, htarget, hderef, hnode, hown⟩ | ⟨htarget, hderef⟩
      · have hwalk : walk es document.js (n + steps + 1) js part.js pointer =
            nodeRules es (walk es document.js (n + steps)) node part.js pointer := by
          cases hreads
          rw [walk, hderef pointer]
        rw [hwalk, accepts_object_iff htarget]
        have hmeet : Node document ⟨.object map, js, hreads⟩ own node := ⟨htarget, hderef⟩
        exact nodeRules_decides hown hnode (hkeywords own node hmeet)
          (htrue own node hmeet) (hparts own node hmeet)
      · obtain ⟨violation, hviolation⟩ := hderef pointer
        have hwalk : walk es document.js (n + steps + 1) js part.js pointer =
            .ok [violation] := by
          cases hreads
          rw [walk, hviolation]
        rw [hwalk, accepts_succ_iff]
        refine decides_ok (iff_of_false (by simp) ?_)
        unfold Step
        dsimp only
        split
        · next own hsome => exact absurd hsome (htarget own)
        · exact id

/-- The validators agree on a document of supported keywords and an instance if
they read alike what both walks meet, and no chain of applications is longer than
the limit of the Rust walk. -/
theorem validators_agree (host : Host) (es : EcmaScript) (document inst : Json)
    (hdoc : SupportedDocument document.value)
    (hdepth : Within document.value MAX_DEPTH document.value inst.value)
    (halike : ∀ below schema part, Met document inst below schema part →
      Alike host.toUnicode es document below schema part)
    {steps : Nat} (hsteps : MAX_DEPTH < steps) :
    Validation.validate host document.value inst.value = .ok () ↔
      validate es steps document.js inst.js = .ok [] := by
  have hroot := walk_decides hdoc halike .document hdepth (Nat.lt_succ_self MAX_DEPTH) hsteps ""
  rw [validate_eq_ok_iff]
  exact hroot.eq_ok_nil_iff.symm

end Walk

/-! ## Concrete documents -/

/-- An engine for the sources of the subset, in a language in which no text spells a
number. -/
def EcmaScript.subset : EcmaScript where
  regExp := .subset
  numberText := .fractions
  lessText _ _ := false
  greaterText _ _ := false

def roleKeywords : Map :=
  [("enum", .array [.string "owner", .string "admin"]), ("pattern", .string "^[a-z]+$"),
    ("type", .string "string")]

/-- A role, by reference. -/
def roleDocument : Json :=
  .ofValue
    (.object [("$defs", .object [("Role", .object roleKeywords)]),
      ("$ref", .string "#/$defs/Role")])
    (by decide)

def admin : Json := .ofValue (.string "admin") (by decide)

theorem roleDocument_supported : SupportedDocument roleDocument.value := by
  have hdefs : Map.get [("$defs", .object [("Role", .object roleKeywords)]),
      ("$ref", .string "#/$defs/Role")] "$defs" = some (.object [("Role", .object roleKeywords)]) :=
    rfl
  refine .of_defs hdefs (.leaf (by decide) (by decide) rfl) fun member hmember => ?_
  rw [List.mem_singleton.mp hmember]
  exact .leaf (by decide) (by decide) rfl

/-- The pattern `^[a-z]+$`. -/
def lettersPattern : Pattern :=
  ⟨true, true, [⟨.klass false [.range 'a' 'z'], 1, USIZE_MAX, one_le_usize_max⟩]⟩

theorem lettersPattern_spelling : RegExp.Spelling lettersPattern "^[a-z]+$" := by
  have hclass : RegExp.ClassSpelling true [.range 'a' 'z'] ['a', '-', 'z', ']'] :=
    .range (by decide) (by decide) (by decide) .close
  have hitem : RegExp.ItemSpelling (.klass false [.range 'a' 'z']) ['[', 'a', '-', 'z', ']'] :=
    @RegExp.ItemSpelling.klass false _ _ hclass (by decide)
  refine ⟨['[', 'a', '-', 'z', ']', '+'], ?_, by decide⟩
  exact .cons (a := ⟨.klass false [.range 'a' 'z'], 1, USIZE_MAX, by decide⟩) hitem .plus .nil

/-- The walks meet the document with the role, and nothing else. -/
theorem met_role {below : Bool} {schema part : Json}
    (h : Met roleDocument admin below schema part) :
    schema = roleDocument ∧ part = admin := by
  induction h with
  | document => exact ⟨rfl, rfl⟩
  | application _ hnode _ happlies ih =>
    obtain ⟨rfl, rfl⟩ := ih
    cases hnode.1
    cases happlies with
    | item _ _ hinst => cases hinst
    | property _ _ hinst => cases hinst
    | additional _ _ _ _ hinst => cases hinst
    | branch hget => cases hget

theorem role_alike {u : Unicode} {es : EcmaScript} {below : Bool} :
    Alike u es roleDocument below roleDocument admin where
  ref reference hget := by
    cases hget
    intro name hname
    obtain rfl : name = "Role" := by
      have := stripPrefix_eq_some_iff.mpr hname
      cases this
      rfl
    exact ⟨by decide, fun ⟨_, href⟩ => by cases href⟩
  keywords map node hnode _ := by
    cases hnode.1
    have hpointer := hnode.2 ""
    cases hpointer
    have hcounts : CountsKept roleKeywords (.string "admin") := by
      constructor
      · intro n hn _
        cases hn
      · intro n hn _
        cases hn
    refine ⟨nofun, fun options options' hget hget' => ?_, hcounts, fun source text hget hinst => ?_⟩
    · cases hget
      cases hget'
      exact enum_of_strings
        (.cons (.string (by decide)) (.cons (.string (by decide)) .nil)) (by decide)
    · cases hget
      cases hinst
      exact patternAlike_of_isPlain lettersPattern_spelling (by decide)

theorem validators_agree_role :
    Validation.validate Host.ascii roleDocument.value admin.value = .ok () ↔
      validate .subset (MAX_DEPTH + 1) roleDocument.js admin.js = .ok [] := by
  refine validators_agree Host.ascii .subset roleDocument admin roleDocument_supported (by decide)
    (fun below schema part hmet => ?_) (Nat.lt_succ_self _)
  obtain ⟨rfl, rfl⟩ := met_role hmet
  exact role_alike

/-- A reference to a definition that refers to another. -/
def chainDocument : Json :=
  .ofValue
    (.object [("$defs", .object
        [("Handle", .object [("$ref", .string "#/$defs/Name")]),
          ("Name", .object [("type", .string "string")])]),
      ("$ref", .string "#/$defs/Handle")])
    (by decide)

/-- A constant with two members. -/
def constDocument : Json :=
  .ofValue (.object [("const", .object [("from", .string "a"), ("to", .string "b")])]) (by decide)

/-- The same members, the other way round. -/
def swapped : Json where
  value := .object [("from", .string "a"), ("to", .string "b")]
  js := .object [("to", .string "b"), ("from", .string "a")]
  reads := (reads_ofValue (.object [("from", .string "a"), ("to", .string "b")]) (by decide)).perm
    (.swap _ _ _)

def flag : Json := .ofValue (.bool true) rfl

def carriageReturn : Json := .ofValue (.string "\r") (by decide)

def dotDocument : Json := .ofValue (.object [("pattern", .string "^.$")]) (by decide)

/-- Rust stops behind one reference, compares constants by value and lets the dot
stand for a carriage return; TypeScript does none of it. -/
theorem validators_disagree :
    (SupportedDocument chainDocument.value ∧
        Validation.validate Host.ascii chainDocument.value flag.value = .ok () ∧
        validate .subset (MAX_DEPTH + 1) chainDocument.js flag.js =
          .ok [⟨"", "type", "expected string, got boolean"⟩]) ∧
      (SupportedDocument constDocument.value ∧
        Validation.validate Host.ascii constDocument.value swapped.value = .ok () ∧
        validate .subset (MAX_DEPTH + 1) constDocument.js swapped.js ≠ .ok []) ∧
      SupportedDocument dotDocument.value ∧
        Validation.validate Host.ascii dotDocument.value carriageReturn.value = .ok () ∧
        validate .subset (MAX_DEPTH + 1) dotDocument.js carriageReturn.js =
          .ok [⟨"", "pattern", "does not match ^.$"⟩] := by
  have hchain : SupportedDocument chainDocument.value := by
    have hname : Supported (.object [("type", .string "string")]) :=
      .leaf (by decide) (by decide) rfl
    have hhandle : Supported (.object [("$ref", .string "#/$defs/Name")]) :=
      .leaf (by decide) (by decide) rfl
    exact .of_defs rfl (.leaf (by decide) (by decide) rfl)
      (List.forall_mem_cons.mpr ⟨hhandle, List.forall_mem_singleton.mpr hname⟩)
  have hconst : SupportedDocument constDocument.value :=
    ⟨.leaf (by decide) (by decide) rfl, nofun, nofun⟩
  have hdot : SupportedDocument dotDocument.value :=
    ⟨.leaf (by decide) (by decide) rfl, nofun, nofun⟩
  exact ⟨⟨hchain, by decide, by decide⟩, ⟨hconst, by decide, by decide⟩, hdot,
    by decide +kernel, by decide +kernel⟩

end TypeScript
end IndieWorker
