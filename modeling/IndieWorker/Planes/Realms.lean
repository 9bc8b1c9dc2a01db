import IndieWorker.Authz
import IndieWorker.Planes

/-!
# Two realms

The tokens an admin process and a product process accept, when the issuers they
ask for come from an environment that the admin plane accepted.
-/

namespace IndieWorker
namespace Planes

open Authz

/-- `normalize` of the token checks and `normalizeIssuer` of the boot checks are
written apart and say the same. -/
theorem normalize_eq_normalizeIssuer (issuer : String) :
    normalize issuer = normalizeIssuer issuer := rfl

/-- The answer is accepted for the issuer and the audience, under some scopes,
assurance level and leeway, at some time. -/
def Accepted (i : Introspection) (issuer : String) (audience : Audience) : Prop :=
  ∃ b r now actor, r.issuer = issuer ∧ r.audience = audience ∧
    project b i r now = some (.ok actor)

/-- The audiences of the admin plane. -/
def adminAudiences : List Audience := [.adminWeb, .adminApi]

/-- The audiences of the product plane. -/
def customerAudiences : List Audience := [.web, .api]

theorem realm_of_mem_admin {audience : Audience} (h : audience ∈ adminAudiences) :
    audience.realm = .admin := by
  cases audience with
  | web | api => simp [adminAudiences] at h
  | adminWeb | adminApi => rfl

theorem realm_of_mem_customer {audience : Audience} (h : audience ∈ customerAudiences) :
    audience.realm = .customer := by
  cases audience with
  | web | api => rfl
  | adminWeb | adminApi => simp [customerAudiences] at h

theorem Accepted.names {i : Introspection} {issuer : String} {audience : Audience}
    (h : Accepted i issuer audience) :
    i.issuerName = normalizeIssuer issuer ∧ i.realmName = audience.realm.asStr := by
  obtain ⟨b, r, now, actor, rfl, rfl, h⟩ := h
  have hok := project_ok h
  exact ⟨hok.1.trans (normalize_eq_normalizeIssuer _), hok.2.2.1⟩

/-- Only an actor of the admin realm can be on the allow-list. -/
theorem isAllowlisted_of_customer {actor : VerifiedActor} (h : actor.realm = .customer)
    (allowlist : List String) : isAllowlisted actor allowlist = false := by
  unfold isAllowlisted
  rw [h]
  rfl

/-- An admin process that starts with both issuers set accepts no token that the
product plane accepts: the issuers differ and the realm claims differ. -/
theorem realms_apart {lookup : String → Option String} {config : PlaneConfig}
    {customer admin : String} (hconfig : validate .admin lookup = .ok config)
    (hcustomer : config.customerIssuer = some customer)
    (hadmin : config.adminIssuer = some admin) :
    (∀ i₁ i₂ audience₁ audience₂, audience₁ ∈ adminAudiences → audience₂ ∈ customerAudiences →
      Accepted i₁ admin audience₁ → Accepted i₂ customer audience₂ →
        i₁.issuerName ≠ i₂.issuerName ∧ i₁.realmName ≠ i₂.realmName) ∧
    (∀ i audience₁ audience₂, audience₁ ∈ adminAudiences → audience₂ ∈ customerAudiences →
      ¬ (Accepted i admin audience₁ ∧ Accepted i customer audience₂)) ∧
    (∀ b i r now actor allowlist, r.audience ∈ customerAudiences →
      project b i r now = some (.ok actor) → isAllowlisted actor allowlist = false) := by
  have hissuers : normalizeIssuer customer ≠ normalizeIssuer admin := by
    obtain ⟨_, ⟨a, ha, hne⟩, _, hfields⟩ := validate_admin_ok hconfig
    subst hfields
    rw [ha] at hadmin
    cases hadmin
    exact hne customer hcustomer
  have hapart : ∀ i₁ i₂ audience₁ audience₂, audience₁ ∈ adminAudiences →
      audience₂ ∈ customerAudiences → Accepted i₁ admin audience₁ →
        Accepted i₂ customer audience₂ →
          i₁.issuerName ≠ i₂.issuerName ∧ i₁.realmName ≠ i₂.realmName := by
    intro i₁ i₂ audience₁ audience₂ h₁ h₂ haccept₁ haccept₂
    obtain ⟨hissuer₁, hrealm₁⟩ := haccept₁.names
    obtain ⟨hissuer₂, hrealm₂⟩ := haccept₂.names
    constructor
    · rw [hissuer₁, hissuer₂]
      exact hissuers.symm
    · rw [hrealm₁, hrealm₂, realm_of_mem_admin h₁, realm_of_mem_customer h₂]
      decide
  refine ⟨hapart, ?_, ?_⟩
  · intro i audience₁ audience₂ h₁ h₂ ⟨haccept₁, haccept₂⟩
    exact (hapart i i audience₁ audience₂ h₁ h₂ haccept₁ haccept₂).1 rfl
  · intro b i r now actor allowlist haudience hproject
    have hrealm : actor.realm = .customer := by
      rw [(project_ok hproject).2.2.2.1, realm_of_mem_customer haudience]
    exact isAllowlisted_of_customer hrealm allowlist

/-- An environment of the admin plane with both issuers. -/
def bothIssuers (name : String) : Option String :=
  if name = Env.sharedAuthIssuer then some "https://auth.indiebuild.dev"
  else if name = Env.sharedAuthAdminIssuer then some "https://auth-admin.indiebuild.dev/"
  else if name = Env.adminAllowlist then some "b, a ,b,c"
  else none

/-- A token of the admin realm. -/
def adminToken : Introspection where
  active := true
  issuer := some "https://auth-admin.indiebuild.dev"
  audiences := ["indiebuild-admin"]
  subject := some "usr_018f2ee1"
  realm := some " admin "
  scopes := []
  assuranceLevel := some 2
  organization := none
  expiresAt := some 1788600600
  notBefore := none

theorem realms_apart_of_token :
    Accepted adminToken "https://auth-admin.indiebuild.dev/" .adminApi ∧
      ¬ Accepted adminToken "https://auth.indiebuild.dev" .web := by
  have hconfig : validate .admin bothIssuers = .ok ⟨.admin, none, none, none,
      some "https://auth.indiebuild.dev", some "https://auth-admin.indiebuild.dev/",
      ["b", "a", "c"]⟩ := by decide +kernel
  have haccepted : Accepted adminToken "https://auth-admin.indiebuild.dev/" .adminApi :=
    ⟨.checked, .new "https://auth-admin.indiebuild.dev/" .adminApi, 1788600000,
      ⟨"usr_018f2ee1", .admin, .adminApi, [], 2, none⟩, rfl, rfl, by decide +kernel⟩
  exact ⟨haccepted, fun hproduct => (realms_apart hconfig rfl rfl).2.1 adminToken .adminApi .web
    (by decide) (by decide) ⟨haccepted, hproduct⟩⟩

end Planes
end IndieWorker
