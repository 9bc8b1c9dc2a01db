import IndieWorker.Validation.PatternParse
import IndieWorker.Validation.Verdict

/-!
# Failing closed

Where a construct that the validator does not implement is met, the instance must be
rejected.  It is when the walk refuses the construct: in an object that it works with,
in a child of such an object, or in every branch of its `oneOf`.  A branch that stands
in for another swallows it, a pattern may be taken beyond the documented grammar,
keywords beside a `$ref` are never looked at, and behind the second of two references
nothing is.
-/

namespace IndieWorker
namespace Validation

/-- A keyword, a pattern or a format outside the documented subset, met in an object. -/
inductive Unimplemented (map : Map) : Value → Prop
  | keyword (key : String) {inst : Value} : key ∈ map.keys → isSupportedKey key = false →
      Unimplemented map inst
  | pattern {source text : String} : map.get "pattern" = some (.string source) →
      (∀ p : Pattern, ¬ p.Documented source) → Unimplemented map (.string text)
  | format {f text : String} : map.get "format" = some (.string f) → f ∉ FORMAT_NAMES →
      Unimplemented map (.string text)

/-- Evaluating the instance applies to some value a subschema that carries an
unimplemented construct, or a reference that leads nowhere. -/
inductive Carries (root : Value) : Value → Value → Prop
  | construct {map : Map} {inst : Value} : Unimplemented map inst → Carries root (.object map) inst
  | unresolved {map : Map} {inst : Value} : IsAlias (.object map) →
      target root (.object map) = none → Carries root (.object map) inst
  | application {map : Map} {inst s v : Value} : (s, v) ∈ applications map inst →
      Carries root s v → Carries root (.object map) inst
  | reference {map : Map} {inst s : Value} : IsAlias (.object map) →
      target root (.object map) = some s → Carries root s inst → Carries root (.object map) inst

/-- The walk refuses a construct of an object that it works with, or of a child or every
branch of it, or it ends at the type of the instance before it comes to one. -/
inductive RefusesObject (R : Value → Value → Prop) (map : Map) : Value → Prop
  | type {inst : Value} : typeHolds map (kindOf inst) = false → RefusesObject R map inst
  | keyword (key : String) {inst : Value} : key ∈ map.keys → isSupportedKey key = false →
      RefusesObject R map inst
  | pattern {source text : String} : map.get "pattern" = some (.string source) →
      (∀ (p : Pattern) (beyond : Bool), ¬ p.Written beyond source) →
      RefusesObject R map (.string text)
  | format {f text : String} : map.get "format" = some (.string f) → f ∉ FORMAT_NAMES →
      RefusesObject R map (.string text)
  | child {inst s v : Value} : (s, v) ∈ kindApplications map inst → R s v →
      RefusesObject R map inst
  | branches {inst : Value} {branches : List Value} :
      map.get "oneOf" = some (.array branches) → (∀ branch ∈ branches, R branch inst) →
      RefusesObject R map inst

/-- What the walk refuses with this much room: a reference that leads to no object, and
what an object refuses. -/
def Refuses (root : Value) : Nat → Value → Value → Prop
  | 0, _, _ => True
  | room + 1, schema, inst =>
    match schema with
    | .object members =>
      match target root (.object members) with
      | some (.object map) => RefusesObject (Refuses root room) map inst
      | _ => True
    | _ => False

/-- The walk swallows a construct of an object that it works with: it takes a pattern, or
one branch stands in for another. -/
inductive SwallowsObject (R S : Value → Value → Prop) (map : Map) : Value → Prop
  | pattern {source text : String} {p : Pattern} : map.get "pattern" = some (.string source) →
      p.Written true source → SwallowsObject R S map (.string text)
  | branch {inst branch other : Value} : (branch, inst) ∈ oneOfApplications map inst →
      (other, inst) ∈ oneOfApplications map inst → R branch inst → ¬ R other inst →
      SwallowsObject R S map inst
  | application {inst s v : Value} : (s, v) ∈ applications map inst → S s v →
      SwallowsObject R S map inst

/-- What the walk swallows with this much room: all that stands beside a reference or
behind the second of two, and what an object swallows. -/
def Swallows (root : Value) : Nat → Value → Value → Prop
  | 0, _, _ => False
  | room + 1, schema, inst =>
    match schema with
    | .object members =>
      IsAlias (.object members) ∧ (Unimplemented members inst ∨
          ∃ p ∈ applications members inst, Carries root p.1 p.2) ∨
        ∃ map, target root (.object members) = some (.object map) ∧
          (IsAlias (.object members) ∧ IsAlias (.object map) ∧ Carries root (.object map) inst ∨
            SwallowsObject (Refuses root room) (Swallows root room) map inst)
    | _ => False

section Refusing

variable {host : Host} {root schema inst : Value} {map : Map} {R S : Value → Value → Prop}

theorem not_objectStep_of_refusesObject {u : Unicode} {A : Value → Value → Prop}
    (hchild : ∀ s v, R s v → ¬ A s v) (h : RefusesObject R map inst) :
    ¬ ObjectStep A u map inst := by
  intro hstep
  cases h with
  | type htype =>
    rw [hstep.type] at htype
    cases htype
  | keyword key hkey hno =>
    rw [hstep.keys key hkey] at hno
    cases hno
  | @pattern source text hget hnone =>
    have hkind : StringOk u map text := hstep.kind
    obtain ⟨compiled, hok, -⟩ := hkind.2.1 source (by rw [hget]; rfl)
    obtain ⟨beyond, hwritten⟩ := Pattern.written_of_parse hok
    exact hnone compiled beyond hwritten
  | @format f text hget hno =>
    have hkind : StringOk u map text := hstep.kind
    have hformat := hkind.2.2 f (by rw [hget]; rfl)
    rcases hformat with ⟨rfl, -⟩ | ⟨rfl, -⟩ | ⟨rfl, -⟩ | ⟨rfl, -⟩ <;> exact hno (by decide)
  | child hp hR => exact hchild _ _ hR (hstep.kind.child hp)
  | branches hbranches hall =>
    obtain ⟨before, branch, after, rfl, hbranch, -⟩ := hstep.oneOf _ hbranches
    exact hchild _ _ (hall branch (by simp)) hbranch

/-- What the walk refuses is never accepted. -/
theorem not_accepts_of_refuses {room : Nat} (h : Refuses root room schema inst) :
    ¬ accepts host root room schema inst := by
  induction room generalizing schema inst with
  | zero => exact not_accepts_zero
  | succ room ih =>
    rw [accepts_succ_iff]
    cases schema with
    | object members =>
      unfold Refuses at h
      unfold Step
      dsimp only at h ⊢
      rcases htarget : target root (.object members) with _ | t
      · exact id
      · rw [htarget] at h
        cases t with
        | object map => exact not_objectStep_of_refusesObject (fun s v => ih) h
        | _ => exact id
    | _ => exact absurd h id

/-- A construct of an object is refused, or it is a pattern that the parser takes. -/
theorem Unimplemented.refused_or_swallowed (h : Unimplemented map inst) :
    RefusesObject R map inst ∨ SwallowsObject R S map inst := by
  cases h with
  | keyword key hkey hno => exact Or.inl (.keyword key hkey hno)
  | @pattern source text hget hundocumented =>
    by_cases hbeyond : ∃ p : Pattern, p.Written true source
    · obtain ⟨p, hp⟩ := hbeyond
      exact Or.inr (.pattern hget hp)
    · refine Or.inl (.pattern hget fun p beyond hwritten => ?_)
      cases beyond with
      | true => exact hbeyond ⟨p, hwritten⟩
      | false => exact hundocumented p hwritten
  | format hget hno => exact Or.inl (.format hget hno)

/-- A branch that is refused: all of them are, or another stands in for it. -/
theorem refused_or_swallowed_of_branch {branch : Value}
    (hbranch : (branch, inst) ∈ oneOfApplications map inst) (h : R branch inst) :
    RefusesObject R map inst ∨ SwallowsObject R S map inst := by
  obtain ⟨branches, hget, happlied⟩ : ∃ branches, map.get "oneOf" = some (.array branches) ∧
      oneOfApplications map inst = branches.map (·, inst) := by
    unfold oneOfApplications at hbranch ⊢
    generalize map.get "oneOf" = given at hbranch ⊢
    rcases given with _ | v
    · cases hbranch
    · cases v with
      | array branches => exact ⟨branches, rfl, rfl⟩
      | _ => cases hbranch
  by_cases hall : ∀ other ∈ branches, R other inst
  · exact Or.inl (.branches hget hall)
  · obtain ⟨other, hother⟩ := not_forall.mp hall
    obtain ⟨hmem, hnot⟩ := Classical.not_imp.mp hother
    refine Or.inr (.branch hbranch ?_ h hnot)
    rw [happlied]
    exact List.mem_map_of_mem hmem

/-- What an object applies is refused or swallowed with it. -/
theorem refused_or_swallowed_of_application {s v : Value} (hp : (s, v) ∈ applications map inst)
    (h : R s v ∨ S s v) : RefusesObject R map inst ∨ SwallowsObject R S map inst := by
  rcases h with hR | hS
  · rcases List.mem_append.mp hp with hchild | hbranch
    · exact Or.inl (.child hchild hR)
    · have hv : v = inst := by
        unfold oneOfApplications at hbranch
        split at hbranch
        · obtain ⟨branch, -, heq⟩ := List.mem_map.mp hbranch
          cases heq
          rfl
        · cases hbranch
      subst hv
      exact refused_or_swallowed_of_branch hbranch hR
  · exact Or.inr (.application hp hS)

theorem refuses_or_swallows_of_target {room : Nat} {members : Map}
    (htarget : target root (.object members) = some (.object map))
    (h : RefusesObject (Refuses root room) map inst ∨
      SwallowsObject (Refuses root room) (Swallows root room) map inst) :
    Refuses root (room + 1) (.object members) inst ∨
      Swallows root (room + 1) (.object members) inst := by
  rcases h with hrefuses | hswallows
  · refine Or.inl ?_
    unfold Refuses
    dsimp only
    rwa [htarget]
  · exact Or.inr (Or.inr ⟨map, htarget, Or.inr hswallows⟩)

/-- Every construct that a document carries is refused, or the walk swallows one. -/
theorem Carries.refuses_or_swallows (h : Carries root schema inst) (room : Nat) :
    Refuses root room schema inst ∨ Swallows root room schema inst := by
  induction h generalizing room with
  | @construct members inst hmap =>
    cases room with
    | zero => exact Or.inl trivial
    | succ room =>
      by_cases halias : IsAlias (.object members)
      · exact Or.inr (Or.inl ⟨halias, Or.inl hmap⟩)
      · exact refuses_or_swallows_of_target (target_of_not_isAlias halias)
          hmap.refused_or_swallowed
  | @unresolved members inst halias htarget =>
    refine Or.inl ?_
    cases room with
    | zero => trivial
    | succ room =>
      unfold Refuses
      dsimp only
      rw [htarget]
      trivial
  | @application members inst s v hp hcarries ih =>
    cases room with
    | zero => exact Or.inl trivial
    | succ room =>
      by_cases halias : IsAlias (.object members)
      · exact Or.inr (Or.inl ⟨halias, Or.inr ⟨_, hp, hcarries⟩⟩)
      · exact refuses_or_swallows_of_target (target_of_not_isAlias halias)
          (refused_or_swallowed_of_application hp (ih room))
  | @reference members inst s halias htarget hcarries ih =>
    cases room with
    | zero => exact Or.inl trivial
    | succ room =>
      obtain ⟨own, rfl⟩ : ∃ own, s = .object own := by
        cases hcarries <;> exact ⟨_, rfl⟩
      by_cases hown : IsAlias (.object own)
      · exact Or.inr (Or.inr ⟨own, htarget, Or.inl ⟨halias, hown, hcarries⟩⟩)
      -- a definition that is no reference is what the walk works with
      · have hself : target root (.object own) = some (.object own) := target_of_not_isAlias hown
        refine refuses_or_swallows_of_target htarget ?_
        rcases ih (room + 1) with hrefuses | hswallows
        · unfold Refuses at hrefuses
          dsimp only at hrefuses
          rw [hself] at hrefuses
          exact Or.inl hrefuses
        · rcases hswallows with hbeside | ⟨map, hmap, hsecond | hswallows⟩
          · exact absurd hbeside.1 hown
          · exact absurd hsecond.1 hown
          · rw [hself] at hmap
            cases hmap
            exact Or.inr hswallows

/-- The validator fails closed on a document whose constructs the walk refuses. -/
theorem fails_closed_of_refuses (host : Host) (root inst : Value)
    (h : Carries root root inst → Refuses root (MAX_DEPTH + 1) root inst) :
    Carries root root inst → validate host root inst ≠ .ok () := by
  intro hcarries
  rw [ne_eq, validate_eq_ok_iff]
  exact not_accepts_of_refuses (h hcarries)

/-- A keyword that is not implemented in the only branch. -/
def onlyBranchDocument : Value :=
  .object [("oneOf", .array [.object [("contentEncoding", .string "base64")]])]

theorem fails_closed_only_branch :
    Carries onlyBranchDocument onlyBranchDocument (.string "x") ∧
      validate Host.ascii onlyBranchDocument (.string "x") ≠ .ok () := by
  have hcarries : Carries onlyBranchDocument onlyBranchDocument (.string "x") :=
    .application (s := .object [("contentEncoding", .string "base64")]) (v := .string "x")
      (by decide) (.construct (.keyword "contentEncoding" (by decide) (by decide)))
  refine ⟨hcarries, fails_closed_of_refuses Host.ascii _ _ (fun _ => ?_) hcarries⟩
  refine RefusesObject.branches rfl fun branch hbranch => ?_
  rw [List.mem_singleton.mp hbranch]
  exact RefusesObject.keyword "contentEncoding" (by decide) (by decide)

/-- An unimplemented keyword in a branch that another branch stands in for. -/
def branchDocument : Value :=
  .object [("oneOf", .array [.object [("contentEncoding", .string "base64")], .bool true])]

/-- An unimplemented keyword beside a reference. -/
def besideDocument : Value :=
  .object [("$defs", .object [("Id", .object [("type", .string "string")])]),
    ("$ref", .string "#/$defs/Id"), ("contentEncoding", .string "base64")]

/-- An unimplemented keyword behind two references. -/
def secondRefDocument : Value :=
  .object [("$defs", .object [("Body", .object [("contentEncoding", .string "base64")]),
      ("Payload", .object [("$ref", .string "#/$defs/Body")])]),
    ("$ref", .string "#/$defs/Payload")]

/-- A pattern outside the documented grammar. -/
def beyondDocument : Value := .object [("pattern", .string "*a")]

/-- A branch that is not implemented passes for one that does not match, what stands
beside a reference or behind the second of two is not looked at, and a pattern outside
the grammar is taken. -/
theorem branch_swallows_unimplemented :
    (Carries branchDocument branchDocument (.string "x") ∧
        validate Host.ascii branchDocument (.string "x") = .ok ()) ∧
      (Carries besideDocument besideDocument (.string "x") ∧
        validate Host.ascii besideDocument (.string "x") = .ok ()) ∧
      (Carries secondRefDocument secondRefDocument (.string "x") ∧
        validate Host.ascii secondRefDocument (.string "x") = .ok ()) ∧
      Carries beyondDocument beyondDocument (.string "*a") ∧
        validate Host.ascii beyondDocument (.string "*a") = .ok () := by
  refine ⟨⟨?_, by decide⟩, ⟨?_, by decide⟩, ⟨?_, by decide⟩, ?_, by decide⟩
  · exact .application (s := .object [("contentEncoding", .string "base64")]) (v := .string "x")
      (by decide) (.construct (.keyword "contentEncoding" (by decide) (by decide)))
  · exact .construct (.keyword "contentEncoding" (by decide) (by decide))
  · exact .reference ⟨_, rfl⟩ rfl (.reference ⟨_, rfl⟩ rfl
      (.construct (.keyword "contentEncoding" (by decide) (by decide))))
  · exact .construct (.pattern rfl written_bare_quantifier.not_documented)

end Refusing

end Validation
end IndieWorker
