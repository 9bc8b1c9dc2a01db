import IndieWorker.Lib.Decision
import IndieWorker.Lib.Overflow
import IndieWorker.Lib.Text

/-!
# Dual-realm authorization

`src/runtime/authz.rs`: which introspection answers are acceptable, for which
audience.  Times are `i64` seconds.
-/

namespace IndieWorker
namespace Authz

open Decision Text

/-- Which identity realm a token came from. -/
inductive Realm where
  | customer
  | admin
  deriving DecidableEq, Repr

def Realm.asStr : Realm → String
  | customer => "customer"
  | admin => "admin"

/-- The audience a service introspects for. -/
inductive Audience where
  | web
  | api
  | adminWeb
  | adminApi
  deriving DecidableEq, Repr

namespace Audience

def asStr : Audience → String
  | web => "indiebuild-web"
  | api => "indiebuild-api"
  | adminWeb => "indiebuild-admin-web"
  | adminApi => "indiebuild-admin"

/-- The realm this audience belongs to. -/
def realm : Audience → Realm
  | web | api => .customer
  | adminWeb | adminApi => .admin

end Audience

/-- An introspection answer, reduced to the fields we act on. -/
structure Introspection where
  active : Bool
  issuer : Option String
  audiences : List String
  subject : Option String
  realm : Option String
  scopes : List String
  assuranceLevel : Option UInt8
  organization : Option String
  expiresAt : Option Int64
  notBefore : Option Int64
  deriving DecidableEq

/-- What a caller requires of a token. -/
structure Requirements where
  issuer : String
  audience : Audience
  requiredScopes : List String
  minAssuranceLevel : UInt8
  leewaySeconds : Int64
  deriving DecidableEq

namespace Requirements

def new (issuer : String) (audience : Audience) : Requirements := ⟨issuer, audience, [], 1, 30⟩

def withScopes (r : Requirements) (scopes : List String) : Requirements :=
  { r with requiredScopes := scopes }

def withMinAssurance (r : Requirements) (level : UInt8) : Requirements :=
  { r with minAssuranceLevel := level }

end Requirements

/-- A token that satisfied every requirement. -/
structure VerifiedActor where
  subject : String
  realm : Realm
  audience : Audience
  scopes : List String
  assuranceLevel : UInt8
  organization : Option String
  deriving DecidableEq

/-- Why a token was refused. -/
inductive VerifyError where
  | inactive
  | issuer
  | audience
  | realm
  | missingSubject
  | invalidSubject
  | expired
  | notYetValid
  | insufficientAssurance
  | missingScope
  deriving DecidableEq, Repr

def normalize (value : String) : String := trimEndMatches '/' (trimmed value)

/-- A character of a subject. -/
def isSubjectChar (c : Char) : Bool :=
  c.isAlphanum || c == '-' || c == '_' || c == ':' || c == '.' || c == '@'

def validSubject (value : String) : Option String :=
  let value := trimmed value
  if value ≠ "" ∧ value.utf8ByteSize ≤ 255 ∧ value.toList.all isSubjectChar then some value
  else none

/-- The organization of an actor, unless it is blank. -/
def organizationOf (i : Introspection) : Option String :=
  (i.organization.map trimmed).filter (· ≠ "")

/-- Has the answer expired?  `none` where the subtraction does not return. -/
def isExpired (b : Build) (i : Introspection) (r : Requirements) (now : Int64) : Option Bool :=
  match i.expiresAt with
  | none => some false
  | some expiresAt => (b.subInt now r.leewaySeconds).map fun t => t ≥ expiresAt

def isEarly (b : Build) (i : Introspection) (r : Requirements) (now : Int64) : Option Bool :=
  match i.notBefore with
  | none => some false
  | some notBefore => (b.addInt now r.leewaySeconds).map fun t => t < notBefore

/-- The checks on the subject and the scopes, which come last. -/
def projectSubject (i : Introspection) (r : Requirements) : Except VerifyError VerifiedActor :=
  let assuranceLevel := i.assuranceLevel.getD 1
  if assuranceLevel < r.minAssuranceLevel then .error .insufficientAssurance
  else
    match i.subject with
    | none => .error .missingSubject
    | some subject =>
      match validSubject subject with
      | none => .error .invalidSubject
      | some subject =>
        if r.requiredScopes.any (fun required => !i.scopes.contains required) then
          .error .missingScope
        else
          .ok ⟨subject, r.audience.realm, r.audience, i.scopes, assuranceLevel, organizationOf i⟩

/-- Project an introspection answer into an actor, or refuse it.  Answers `none`
where the call does not return. -/
def project (b : Build) (i : Introspection) (r : Requirements) (now : Int64) :
    Option (Except VerifyError VerifiedActor) :=
  let expectedIssuer := normalize r.issuer
  let issuer := (i.issuer.map normalize).getD ""
  let realm := (i.realm.map trimmed).getD ""
  if !i.active then some (.error .inactive)
  else if expectedIssuer = "" ∨ issuer ≠ expectedIssuer then some (.error .issuer)
  else if !i.audiences.any (fun aud => trimmed aud == r.audience.asStr) then
    some (.error .audience)
  else if realm ≠ r.audience.realm.asStr then some (.error .realm)
  else
    match isExpired b i r now with
    | none => none
    | some true => some (.error .expired)
    | some false =>
      match isEarly b i r now with
      | none => none
      | some true => some (.error .notYetValid)
      | some false => some (projectSubject i r)

/-- Membership of the super-admin allow-list. -/
def isAllowlisted (actor : VerifiedActor) (allowlist : List String) : Bool :=
  actor.realm == .admin && allowlist.any (· == actor.subject)

/-! ## What an accepted answer says -/

/-- The issuer of an answer, as it is compared. -/
def Introspection.issuerName (i : Introspection) : String := (i.issuer.map normalize).getD ""

/-- The realm claim of an answer, as it is compared. -/
def Introspection.realmName (i : Introspection) : String := (i.realm.map trimmed).getD ""

theorem projectSubject_ok {i : Introspection} {r : Requirements} {actor : VerifiedActor}
    (h : projectSubject i r = .ok actor) :
    actor.realm = r.audience.realm ∧ actor.audience = r.audience := by
  unfold projectSubject at h
  rw [refuse_eq_ok_iff] at h
  obtain ⟨_, h⟩ := h
  rcases hsubject : i.subject with _ | subject
  · rw [hsubject] at h
    cases h
  · rw [hsubject] at h
    dsimp only at h
    rcases hvalid : validSubject subject with _ | subject
    · rw [hvalid] at h
      cases h
    · rw [hvalid] at h
      dsimp only at h
      rw [refuse_eq_ok_iff] at h
      obtain ⟨_, h⟩ := h
      cases h
      exact ⟨rfl, rfl⟩

/-- An accepted answer has passed the checks on its subject and scopes. -/
theorem projectSubject_of_project {b : Build} {i : Introspection} {r : Requirements} {now : Int64}
    {actor : VerifiedActor} (h : project b i r now = some (.ok actor)) :
    projectSubject i r = .ok actor := by
  unfold project at h
  rw [refuse_eq_some_ok_iff, refuse_eq_some_ok_iff, refuse_eq_some_ok_iff,
    refuse_eq_some_ok_iff] at h
  have h := h.2.2.2.2
  rcases hexpired : isExpired b i r now with _ | _ | _
  · rw [hexpired] at h
    cases h
  · rw [hexpired] at h
    dsimp only at h
    rcases hearly : isEarly b i r now with _ | _ | _
    · rw [hearly] at h
      cases h
    · rw [hearly] at h
      exact Option.some.inj h
    · rw [hearly] at h
      cases h
  · rw [hexpired] at h
    cases h

/-- An accepted answer carries the expected issuer and the realm of the
audience. -/
theorem project_ok {b : Build} {i : Introspection} {r : Requirements} {now : Int64}
    {actor : VerifiedActor} (h : project b i r now = some (.ok actor)) :
    i.issuerName = normalize r.issuer ∧ i.issuerName ≠ "" ∧
      i.realmName = r.audience.realm.asStr ∧ actor.realm = r.audience.realm ∧
        actor.audience = r.audience := by
  have hactor := projectSubject_ok (projectSubject_of_project h)
  unfold project at h
  rw [refuse_eq_some_ok_iff, refuse_eq_some_ok_iff, refuse_eq_some_ok_iff,
    refuse_eq_some_ok_iff] at h
  obtain ⟨_, hissuer, _, hrealm, _⟩ := h
  obtain ⟨hne, heq⟩ := not_or.mp hissuer
  have heq := Decidable.not_not.mp heq
  refine ⟨heq, ?_, Decidable.not_not.mp hrealm, hactor⟩
  show (i.issuer.map normalize).getD "" ≠ ""
  rw [heq]
  exact hne

end Authz
end IndieWorker
