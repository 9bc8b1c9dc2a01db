import IndieWorker.Validation.Verdict

/-!
# References and definitions

`validate_def` looks a definition up and walks it; a `$ref` to it is resolved by
the walk itself, one hop far.  The two agree on a definition that is an object
and no reference.  Behind an alias the walk stops at the keywords written beside
the second `$ref`, and a definition that is `true` is no object to it.
-/

namespace IndieWorker
namespace Validation

/-- The schema that refers to a definition. -/
def refTo (name : String) : Value := .object [("$ref", .string ("#/$defs/" ++ name))]

/-- The keywords of an object, whatever its `$ref`, accept the instance. -/
def KeywordsAccept (host : Host) (root : Value) (map : Map) (inst : Value) : Prop :=
  objectNode host (node host root MAX_DEPTH) map inst "" = []

section Refs

variable {host : Host} {root inst schema : Value} {name : String}

theorem keywordsAccept_iff {map : Map} :
    KeywordsAccept host root map inst ↔
      ObjectStep (accepts host root MAX_DEPTH) host.toUnicode map inst :=
  objectNode_eq_nil fun _ _ _ => node_eq_nil_iff

/-- A reference is decided by the keywords of the definition it names. -/
theorem accepts_refTo_iff (hdef : definition root name = some schema) :
    accepts host root (MAX_DEPTH + 1) (refTo name) inst ↔
      ∃ own, schema = .object own ∧ KeywordsAccept host root own inst := by
  have htarget : target root (refTo name) = some schema := (target_of_ref rfl).trans hdef
  rw [accepts_succ_iff]
  unfold Step refTo
  dsimp only
  change target root (.object [("$ref", .string ("#/$defs/" ++ name))]) = some schema at htarget
  rw [htarget]
  cases schema <;> simp [keywordsAccept_iff]

/-- A definition is decided by the keywords it leads to. -/
theorem accepts_definition_iff :
    accepts host root (MAX_DEPTH + 1) schema inst ↔
      schema = .bool true ∨ ∃ members own, schema = .object members ∧
        target root schema = some (.object own) ∧ KeywordsAccept host root own inst := by
  rw [accepts_succ_iff]
  unfold Step
  cases schema with
  | object members =>
    dsimp only
    rcases target root (.object members) with _ | t
    · simp
    · cases t <;> simp [keywordsAccept_iff]
  | _ => simp

/-- An object that only refers and annotates has no keyword to reject by. -/
theorem keywordsAccept_of_bare {map : Map} (hkeys : KnownKeys map)
    (hbare : ∀ key ∈ map.keys, key = "$ref" ∨ key ∉ KEYWORDS) :
    KeywordsAccept host root map inst := by
  have habsent : ∀ key ∈ KEYWORDS, key ≠ "$ref" → map.get key = none := by
    intro key hkey hne
    rw [← Option.not_isSome_iff_eq_none, Map.isSome_get_iff]
    exact fun hmem => (hbare key hmem).elim hne (absurd hkey)
  have hget : ∀ key ∈ KEYWORDS.tail, map.get key = none := fun key hkey =>
    habsent key (List.mem_of_mem_tail hkey) (by rintro rfl; exact absurd hkey (by decide))
  have hbind : ∀ {α : Type} (f : Value → Option α), ∀ key ∈ KEYWORDS.tail,
      (map.get key).bind f = none := by
    intro α f key hkey
    rw [hget key hkey]
    rfl
  have hlength : ∀ lo ∈ KEYWORDS.tail, ∀ hi ∈ KEYWORDS.tail, ∀ n, LengthOk map lo hi n := by
    intro lo hlo hi hhi n
    simp [LengthOk, hbind _ lo hlo, hbind _ hi hhi]
  rw [keywordsAccept_iff]
  refine ⟨hkeys, ?_, ?_, ?_, ?_, ?_⟩
  · unfold typeHolds
    rw [hget "type" (by decide)]
  · simp [ConstOk, hget "const" (by decide)]
  · simp [EnumOk, hget "enum" (by decide)]
  · cases inst with
    | string text =>
      refine ⟨hlength _ (by decide) _ (by decide) _, ?_, ?_⟩
      · simp [hbind Value.asStr "pattern" (by decide)]
      · simp [hbind Value.asStr "format" (by decide)]
    | number n =>
      constructor
      · simp [hbind Value.asF64 "minimum" (by decide)]
      · simp [hbind Value.asF64 "maximum" (by decide)]
    | array items =>
      refine ⟨hlength _ (by decide) _ (by decide) _, ?_⟩
      simp [hget "items" (by decide)]
    | object object =>
      refine ⟨?_, fun member _ => ?_⟩
      · simp [RequiredOk, hget "required" (by decide)]
      · unfold MemberOk listed
        rw [hbind Value.asObject "properties" (by decide),
          hget "additionalProperties" (by decide)]
        trivial
    | _ => trivial
  · simp [OneOfOk, hget "oneOf" (by decide)]

/-- A reference to a definition that only refers on accepts every instance. -/
theorem node_refTo_of_bare {map : Map} (hdef : definition root name = some (.object map))
    (hkeys : KnownKeys map) (hbare : ∀ key ∈ map.keys, key = "$ref" ∨ key ∉ KEYWORDS)
    (here : String) : node host root (MAX_DEPTH + 1) (refTo name) inst here = [] := by
  have hbeside : KeywordsAccept host root map inst := keywordsAccept_of_bare hkeys hbare
  rw [node_eq_nil_iff, accepts_refTo_iff hdef]
  exact ⟨map, rfl, hbeside⟩

/-- A reference, wherever it stands, means its definition if that is neither `true` nor
itself a reference; one that is `true` it never means. -/
theorem ref_means_definition (host : Host) {root schema : Value} {name : String}
    (hdef : definition root name = some schema) (inst : Value) (here : String) {depth : Nat}
    (hvia : Within root (MAX_DEPTH - depth) (refTo name) inst) (hdepth : depth ≤ MAX_DEPTH) :
    (schema ≠ .bool true → ¬ IsAlias schema →
        (node host root (MAX_DEPTH + 1 - depth) (refTo name) inst here = [] ↔
          validateDef host root name inst = .ok ())) ∧
      (schema = .bool true →
        ¬ (node host root (MAX_DEPTH + 1 - depth) (refTo name) inst here = [] ↔
          validateDef host root name inst = .ok ())) := by
  have hnode : node host root (MAX_DEPTH + 1 - depth) (refTo name) inst here = [] ↔
      ∃ own, schema = .object own ∧ KeywordsAccept host root own inst := by
    rw [node_eq_nil_iff, ← accepts_refTo_iff hdef]
    exact accepts_of_within hvia (by omega) (by omega)
  have hdirect : validateDef host root name inst = .ok () ↔
      accepts host root (MAX_DEPTH + 1) schema inst := by
    rw [validateDef_eq_ok_iff, hdef]
    simp
  rw [hnode, hdirect, accepts_definition_iff]
  constructor
  · intro htrue halias
    cases schema with
    | object own =>
      have htarget : target root (.object own) = some (.object own) :=
        target_of_not_isAlias halias
      simp [htarget]
    | bool b => cases b <;> simp_all
    | _ => simp
  · intro htrue
    subst htrue
    simp

theorem ref_means_definition_integer :
    node Host.ascii
          (.object [("$defs", .object [("Seats", .object [("type", .string "integer")])])])
          (MAX_DEPTH + 1 - 0) (refTo "Seats") (.number (.posInt 5)) "" = [] ↔
      validateDef Host.ascii
          (.object [("$defs", .object [("Seats", .object [("type", .string "integer")])])])
          "Seats" (.number (.posInt 5)) = .ok () := by
  have hdef : definition (.object [("$defs", .object [("Seats",
      .object [("type", .string "integer")])])]) "Seats" =
      some (.object [("type", .string "integer")]) := by decide
  refine (ref_means_definition Host.ascii hdef (.number (.posInt 5)) "" (by decide)
    (by decide)).1 nofun ?_
  intro h
  obtain ⟨reference, href⟩ := h
  cases href

/-- A definition that names another, and one that is `true`. -/
def aliasDocument : Value :=
  .object [("$defs", .object [("Any", .bool true), ("Handle", refTo "Name"),
    ("Name", .object [("type", .string "string")])])]

/-- Behind an alias the reference accepts what the definition rejects, and a
definition that is `true` is rejected behind a reference. -/
theorem alias_accepts_what_its_definition_rejects :
    (Within aliasDocument MAX_DEPTH (refTo "Handle") (.bool true) ∧
        node Host.ascii aliasDocument (MAX_DEPTH + 1) (refTo "Handle") (.bool true) "" = [] ∧
        validateDef Host.ascii aliasDocument "Handle" (.bool true) ≠ .ok ()) ∧
      Within aliasDocument MAX_DEPTH (refTo "Any") .null ∧
        node Host.ascii aliasDocument (MAX_DEPTH + 1) (refTo "Any") .null "" ≠ [] ∧
        validateDef Host.ascii aliasDocument "Any" .null = .ok () := by
  decide

end Refs

end Validation
end IndieWorker
