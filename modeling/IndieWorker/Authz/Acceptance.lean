import IndieWorker.Authz

/-!
# Which tokens are accepted

Acceptance is a conjunction of independent facts, of which each one is kept when
less is required.  Times are compared as integers here; `project` agrees wherever
its two sums fit their width.
-/

namespace IndieWorker
namespace Authz

open Decision Text

/-- `project`, with the two sums of times and leeway exact. -/
def projectExact (i : Introspection) (r : Requirements) (now : Int) :
    Except VerifyError VerifiedActor :=
  if !i.active then .error .inactive
  else if normalize r.issuer = "" ∨ i.issuerName ≠ normalize r.issuer then .error .issuer
  else if !i.audiences.any (fun aud => trimmed aud == r.audience.asStr) then .error .audience
  else if i.realmName ≠ r.audience.realm.asStr then .error .realm
  else if i.expiresAt.any (fun expiresAt => now - r.leewaySeconds.toInt ≥ expiresAt.toInt) then
    .error .expired
  else if i.notBefore.any (fun notBefore => now + r.leewaySeconds.toInt < notBefore.toInt) then
    .error .notYetValid
  else projectSubject i r

/-- The sums that are formed fit an `i64`. -/
structure Fits (i : Introspection) (r : Requirements) (now : Int64) : Prop where
  expiry : i.expiresAt.isSome →
    -2 ^ 63 ≤ now.toInt - r.leewaySeconds.toInt ∧ now.toInt - r.leewaySeconds.toInt < 2 ^ 63
  start : i.notBefore.isSome →
    -2 ^ 63 ≤ now.toInt + r.leewaySeconds.toInt ∧ now.toInt + r.leewaySeconds.toInt < 2 ^ 63

variable {b : Build} {i : Introspection} {r r' : Requirements}

theorem isExpired_of_fits {now : Int64} (h : Fits i r now) :
    isExpired b i r now = some (i.expiresAt.any fun expiresAt =>
      now.toInt - r.leewaySeconds.toInt ≥ expiresAt.toInt) := by
  unfold isExpired
  rcases hexpires : i.expiresAt with _ | expiresAt
  · rfl
  · have hfits := h.expiry (by rw [hexpires]; rfl)
    have hexact : (now - r.leewaySeconds).toInt = now.toInt - r.leewaySeconds.toInt := by
      rw [Int64.toInt_sub]
      exact Int.bmod_eq_of_le (by omega) (by omega)
    dsimp only
    rw [Build.subInt.eq_def, if_pos hfits, Option.map_some, Option.any_some]
    simp only [ge_iff_le, Int64.le_iff_toInt_le, hexact]

theorem isEarly_of_fits {now : Int64} (h : Fits i r now) :
    isEarly b i r now = some (i.notBefore.any fun notBefore =>
      now.toInt + r.leewaySeconds.toInt < notBefore.toInt) := by
  unfold isEarly
  rcases hstart : i.notBefore with _ | notBefore
  · rfl
  · have hfits := h.start (by rw [hstart]; rfl)
    have hexact : (now + r.leewaySeconds).toInt = now.toInt + r.leewaySeconds.toInt := by
      rw [Int64.toInt_add]
      exact Int.bmod_eq_of_le (by omega) (by omega)
    dsimp only
    rw [Build.addInt.eq_def, if_pos hfits, Option.map_some, Option.any_some]
    simp only [Int64.lt_iff_toInt_lt, hexact]

/-- Where its sums fit, the call returns, and answers as if they were exact. -/
theorem project_eq_projectExact {now : Int64} (h : Fits i r now) :
    project b i r now = some (projectExact i r now.toInt) := by
  unfold project projectExact
  rw [isExpired_of_fits h, isEarly_of_fits h]
  generalize (i.expiresAt.any fun t => now.toInt - r.leewaySeconds.toInt ≥ t.toInt) = expired
  generalize (i.notBefore.any fun t => now.toInt + r.leewaySeconds.toInt < t.toInt) = early
  simp only [apply_ite some]
  cases expired with
  | true => rfl
  | false => cases early <;> rfl

/-- Everything an accepted answer has passed. -/
structure Passes (i : Introspection) (r : Requirements) (now : Int) (subject : String) : Prop where
  active : i.active = true
  named : normalize r.issuer ≠ ""
  issuer : i.issuerName = normalize r.issuer
  audience : ∃ aud ∈ i.audiences, trimmed aud = r.audience.asStr
  realm : i.realmName = r.audience.realm.asStr
  alive : ∀ t, i.expiresAt = some t → now - r.leewaySeconds.toInt < t.toInt
  started : ∀ t, i.notBefore = some t → t.toInt ≤ now + r.leewaySeconds.toInt
  assurance : r.minAssuranceLevel ≤ i.assuranceLevel.getD 1
  subject : i.subject.bind validSubject = some subject
  scopes : r.requiredScopes ⊆ i.scopes

/-- The actor of an answer. -/
def actorOf (i : Introspection) (audience : Audience) (subject : String) : VerifiedActor :=
  ⟨subject, audience.realm, audience, i.scopes, i.assuranceLevel.getD 1, organizationOf i⟩

theorem projectSubject_eq_ok_iff {actor : VerifiedActor} :
    projectSubject i r = .ok actor ↔ r.minAssuranceLevel ≤ i.assuranceLevel.getD 1 ∧
      ∃ subject, i.subject.bind validSubject = some subject ∧ r.requiredScopes ⊆ i.scopes ∧
        actor = actorOf i r.audience subject := by
  unfold projectSubject
  rw [refuse_eq_ok_iff, UInt8.not_lt]
  refine and_congr_right fun _ => ?_
  rcases i.subject with _ | raw
  · simp
  · rcases hvalid : validSubject raw with _ | subject
    · simp [hvalid]
    · have hscopes : (r.requiredScopes.any fun required => !i.scopes.contains required) = true ↔
          ¬ r.requiredScopes ⊆ i.scopes := by
        simp [List.subset_def]
      simp only [hvalid, Option.bind_some, refuse_eq_ok_iff, hscopes, not_not, Except.ok.injEq,
        Option.some.injEq, exists_eq_left']
      exact and_congr_right fun _ => eq_comm

theorem projectExact_eq_ok_iff {now : Int} {actor : VerifiedActor} :
    projectExact i r now = .ok actor ↔
      ∃ subject, Passes i r now subject ∧ actor = actorOf i r.audience subject := by
  unfold projectExact
  simp only [refuse_eq_ok_iff, projectSubject_eq_ok_iff]
  constructor
  · intro h
    obtain ⟨hactive, hissuer, haudience, hrealm, hexpired, hearly, hassurance, subject, hsubject,
      hscopes, hactor⟩ := h
    obtain ⟨hnamed, hissuer⟩ := not_or.mp hissuer
    refine ⟨subject, ⟨by simpa using hactive, hnamed, Decidable.not_not.mp hissuer,
      by simpa using haudience, Decidable.not_not.mp hrealm, fun t ht => ?_, fun t ht => ?_,
      hassurance, hsubject, hscopes⟩, hactor⟩
    · rw [ht] at hexpired
      simpa using hexpired
    · rw [ht] at hearly
      simpa using hearly
  · intro h
    obtain ⟨subject, h, hactor⟩ := h
    refine ⟨by simp [h.active], not_or.mpr ⟨h.named, not_not.mpr h.issuer⟩,
      by simpa using h.audience, not_not.mpr h.realm, ?_, ?_, h.assurance, subject, h.subject,
      h.scopes, hactor⟩
    · simpa [Option.any_eq_true] using h.alive
    · simpa [Option.any_eq_true] using h.started

/-- `r'` asks for at least what `r` asks for. -/
structure Requirements.Tightens (r' r : Requirements) : Prop where
  issuer : r'.issuer = r.issuer
  audience : r'.audience = r.audience
  scopes : r.requiredScopes ⊆ r'.requiredScopes
  assurance : r.minAssuranceLevel ≤ r'.minAssuranceLevel
  leeway : r'.leewaySeconds ≤ r.leewaySeconds

/-- What passes tighter requirements passes the others. -/
theorem Passes.loosen {now : Int} {subject : String} (ht : r'.Tightens r)
    (h : Passes i r' now subject) : Passes i r now subject := by
  have hleeway := Int64.le_iff_toInt_le.mp ht.leeway
  refine ⟨h.active, ht.issuer ▸ h.named, ht.issuer ▸ h.issuer, ht.audience ▸ h.audience,
    ht.audience ▸ h.realm, fun t htime => ?_, fun t htime => ?_,
    UInt8.le_trans ht.assurance h.assurance, h.subject,
    fun _ hscope => h.scopes (ht.scopes hscope)⟩
  · have := h.alive t htime
    omega
  · have := h.started t htime
    omega

/-- What passes at two times passes at every time between. -/
theorem Passes.between {now t₁ t₂ : Int} {s₁ s₂ : String} (h₁ : Passes i r t₁ s₁)
    (h₂ : Passes i r t₂ s₂) (hle₁ : t₁ ≤ now) (hle₂ : now ≤ t₂) : Passes i r now s₁ := by
  refine ⟨h₁.active, h₁.named, h₁.issuer, h₁.audience, h₁.realm, fun t ht => ?_, fun t ht => ?_,
    h₁.assurance, h₁.subject, h₁.scopes⟩
  · have := h₂.alive t ht
    omega
  · have := h₁.started t ht
    omega

/-- A token that is accepted stays accepted, as the same actor, when less is
required.  The times at which it is accepted have no gap. -/
theorem project_monotone :
    (∀ i r r' now actor, r'.Tightens r → projectExact i r' now = .ok actor →
      projectExact i r now = .ok actor) ∧
    (∀ i r t₁ now t₂ a₁ a₂, t₁ ≤ now → now ≤ t₂ → projectExact i r t₁ = .ok a₁ →
      projectExact i r t₂ = .ok a₂ → projectExact i r now = .ok a₁ ∧ a₁ = a₂) ∧
    ∀ b i r now, Fits i r now → project b i r now = some (projectExact i r now.toInt) := by
  refine ⟨fun i r r' now actor ht h => ?_, fun i r t₁ now t₂ a₁ a₂ hle₁ hle₂ h₁ h₂ => ?_,
    fun b i r now => project_eq_projectExact⟩
  · obtain ⟨subject, hpasses, hactor⟩ := projectExact_eq_ok_iff.mp h
    rw [ht.audience] at hactor
    exact projectExact_eq_ok_iff.mpr ⟨subject, hpasses.loosen ht, hactor⟩
  · obtain ⟨s₁, hpasses₁, hactor₁⟩ := projectExact_eq_ok_iff.mp h₁
    obtain ⟨s₂, hpasses₂, hactor₂⟩ := projectExact_eq_ok_iff.mp h₂
    have hsubject : s₁ = s₂ := Option.some.inj (hpasses₁.subject.symm.trans hpasses₂.subject)
    refine ⟨projectExact_eq_ok_iff.mpr ⟨s₁, hpasses₁.between hpasses₂ hle₁ hle₂, hactor₁⟩, ?_⟩
    rw [hactor₁, hactor₂, hsubject]

/-- An operator's token, good from 100 to 200. -/
def operatorToken : Introspection where
  active := true
  issuer := some "https://auth-admin.indiebuild.dev/"
  audiences := ["indiebuild-admin"]
  subject := some "ops-1"
  realm := some "admin"
  scopes := ["builds:read", "builds:write"]
  assuranceLevel := some 2
  organization := none
  expiresAt := some 200
  notBefore := some 100

/-- A route that wants a second factor, a scope and no leeway, and one that wants
none of these. -/
theorem project_monotone_operator :
    let plain := Requirements.new "https://auth-admin.indiebuild.dev" .adminApi
    let strict : Requirements :=
      { (plain.withScopes ["builds:write"]).withMinAssurance 2 with leewaySeconds := 0 }
    let actor := actorOf operatorToken .adminApi "ops-1"
    projectExact operatorToken strict 150 = .ok actor ∧
      projectExact operatorToken plain 150 = .ok actor ∧
        projectExact operatorToken plain 120 = .ok actor ∧
          project .checked operatorToken plain 150 = some (.ok actor) := by
  intro plain strict actor
  have htight : strict.Tightens plain := ⟨rfl, rfl, List.nil_subset _, by decide, by decide⟩
  have hstrict : projectExact operatorToken strict 150 = .ok actor := by decide +kernel
  have hearly : projectExact operatorToken plain 100 = .ok actor := by decide +kernel
  have hplain := project_monotone.1 _ _ _ 150 actor htight hstrict
  have hbetween := project_monotone.2.1 _ _ 100 120 150 actor actor (by decide) (by decide) hearly
    hplain
  have hcode := project_monotone.2.2 .checked operatorToken plain 150
    ⟨fun _ => by decide, fun _ => by decide⟩
  exact ⟨hstrict, hplain, hbetween.1, hcode.trans (congrArg some hplain)⟩

end Authz
end IndieWorker
