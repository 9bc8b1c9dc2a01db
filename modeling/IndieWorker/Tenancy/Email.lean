import IndieWorker.Tenancy

/-!
# Whom an invitation is for

Addresses are normalized when they are parsed, and once more where an invitation
is accepted.  A normalized address is its own normal form, so it does not matter
which side was normalized first, or how often.
-/

namespace IndieWorker
namespace Tenancy

open Decision Text

/-- What a parsed address looks like. -/
structure Parsed (normalized localPart domain : List Char) : Prop where
  split : normalized = localPart ++ '@' :: domain
  first : '@' ∉ localPart
  only : '@' ∉ domain
  solid : ∀ c ∈ normalized, isWhitespace c = false
  lower : toAsciiLowercase normalized = normalized

theorem normalize_toAsciiLowercase (raw : String) :
    toAsciiLowercase (normalize raw) = normalize raw :=
  toAsciiLowercase_idem _

theorem parseEmail_eq_ok_iff {raw n d : String} :
    parseEmail raw = .ok (n, d) ↔ ∃ localPart domain,
      splitOnce '@' (normalize raw) = some (localPart, domain) ∧
        isPlausible (normalize raw) localPart domain = true ∧
          n = .ofList (normalize raw) ∧ d = .ofList domain := by
  unfold parseEmail
  dsimp only
  generalize normalize raw = value
  rcases splitOnce '@' value with _ | ⟨localPart, domain⟩
  · constructor
    · intro h
      cases h
    · intro h
      obtain ⟨_, _, hsplit, _⟩ := h
      cases hsplit
  · dsimp only
    constructor
    · intro h
      split at h
      · next hplausible =>
        cases h
        exact ⟨localPart, domain, rfl, hplausible, rfl, rfl⟩
      · cases h
    · intro h
      obtain ⟨_, _, hsplit, hplausible, hn, hd⟩ := h
      cases hsplit
      rw [if_pos hplausible, hn, hd]

theorem isPlausible_domain {value localPart domain : List Char}
    (h : isPlausible value localPart domain = true) {c : Char} (hc : c ∈ domain) :
    c.isAlphanum = true ∨ c = '.' ∨ c = '-' := by
  simp only [isPlausible, Bool.and_eq_true, List.all_eq_true, Bool.or_eq_true, beq_iff_eq] at h
  exact or_assoc.mp (h.1.2 c hc)

theorem isPlausible_solid {value localPart domain : List Char}
    (h : isPlausible value localPart domain = true) : ∀ c ∈ value, isWhitespace c = false := by
  simp only [isPlausible, Bool.and_eq_true, Bool.not_eq_true', List.any_eq_false,
    Bool.not_eq_true] at h
  exact h.2

/-- What is accepted has exactly one `@`, no blank and no capital. -/
theorem parsed_of_parseEmail {raw n d : String} (h : parseEmail raw = .ok (n, d)) :
    ∃ localPart, Parsed n.toList localPart d.toList ∧ n.toList = normalize raw := by
  obtain ⟨localPart, domain, hsplit, hplausible, hn, hd⟩ := parseEmail_eq_ok_iff.mp h
  obtain ⟨htext, hfirst⟩ := splitOnce_eq_some_iff.mp hsplit
  have honly : '@' ∉ domain := by
    intro hat
    rcases isPlausible_domain hplausible hat with hc | hc | hc
    · exact absurd hc (by decide)
    · exact absurd hc (by decide)
    · exact absurd hc (by decide)
  rw [hn, hd, String.toList_ofList, String.toList_ofList]
  exact ⟨localPart, ⟨htext, hfirst, honly, isPlausible_solid hplausible,
    normalize_toAsciiLowercase raw⟩, rfl⟩

/-- A normalized address is its own normal form. -/
theorem normalize_of_parseEmail {raw n d : String} (h : parseEmail raw = .ok (n, d)) :
    normalize n = normalize raw := by
  obtain ⟨localPart, hparsed, hn⟩ := parsed_of_parseEmail h
  rw [← hn, normalize, trim_eq_self hparsed.solid, hparsed.lower]

theorem parseEmail_congr {a b : String} (h : normalize a = normalize b) :
    parseEmail a = parseEmail b := by
  unfold parseEmail
  rw [h]

theorem parseEmail_normalized {raw n d : String} (h : parseEmail raw = .ok (n, d)) :
    parseEmail n = .ok (n, d) :=
  (parseEmail_congr (normalize_of_parseEmail h)).trans h

/-- Two texts that are alike but for the blanks around them and the case of ASCII
letters. -/
def Alike (a b : String) : Prop :=
  ∃ front back core front' back' core' : List Char,
    a.toList = front ++ core ++ back ∧ b.toList = front' ++ core' ++ back' ∧
      (∀ c ∈ front ++ back ++ front' ++ back', isWhitespace c = true) ∧
        eqIgnoreAsciiCase core core' = true

theorem normalize_eq_iff {a b : String} : normalize a = normalize b ↔ Alike a b := by
  constructor
  · intro h
    obtain ⟨front, back, ha, hfront, hback⟩ := trim_prefix_suffix a.toList
    obtain ⟨front', back', hb, hfront', hback'⟩ := trim_prefix_suffix b.toList
    refine ⟨front, back, _, front', back', _, ha, hb, fun c hc => ?_, beq_iff_eq.mpr h⟩
    simp only [List.mem_append] at hc
    rcases hc with ((hc | hc) | hc) | hc
    · exact hfront c hc
    · exact hback c hc
    · exact hfront' c hc
    · exact hback' c hc
  · intro h
    obtain ⟨front, back, core, front', back', core', ha, hb, hblank, hcore⟩ := h
    simp only [List.forall_mem_append] at hblank
    rw [normalize, normalize, ha, hb, trim_append core hblank.1.1.1 hblank.1.1.2,
      trim_append core' hblank.1.2 hblank.2, ← trim_toAsciiLowercase, ← trim_toAsciiLowercase,
      beq_iff_eq.mp hcore]

/-- What an open invitation says of an address, when it was stored normalized. -/
theorem acceptInvitation_address_iff {invitation : Invitation} {email : String} {seats : Seats}
    {now : Int} (hopen : invitation.isOpen now = true)
    (hstored : .ofList (normalize invitation.email) = invitation.email) :
    (acceptInvitation invitation email seats now ≠ .error .invalidEmail ∧
      acceptInvitation invitation email seats now ≠ .error .invitationAddressMismatch) ↔
        ∃ d, parseEmail email = .ok (invitation.email, d) := by
  unfold acceptInvitation
  rw [hopen, hstored, if_neg (by simp)]
  rcases hparse : parseEmail email with e | ⟨n, d⟩
  · have herror : e = .invalidEmail := by
      unfold parseEmail at hparse
      dsimp only at hparse
      split at hparse
      · exact (Except.error.inj hparse).symm
      · split at hparse
        · cases hparse
        · exact (Except.error.inj hparse).symm
    constructor
    · intro h
      rw [herror] at h
      exact absurd rfl h.1
    · intro h
      obtain ⟨d, hd⟩ := h
      cases hd
  · rw [ok_bind]
    by_cases hsame : n = invitation.email
    · subst hsame
      refine iff_of_true ?_ ⟨d, rfl⟩
      dsimp only
      rw [if_neg (by simp)]
      split
      · exact ⟨nofun, nofun⟩
      · exact ⟨nofun, nofun⟩
    · constructor
      · intro h
        dsimp only at h
        rw [if_pos hsame] at h
        exact absurd rfl h.2
      · intro h
        obtain ⟨d', hd'⟩ := h
        cases hd'
        exact absurd rfl hsame

/-- An address that may join without an invitation has, behind its only `@`, a
verified domain. -/
theorem domain_of_authorizeDomainJoin {email : String} {seats : Seats} {policy : JoinPolicy}
    {role : Role} (h : authorizeDomainJoin email seats policy = .ok role) :
    ∃ localPart domain, trim email.toList = localPart ++ '@' :: domain ∧ '@' ∉ localPart ∧
      '@' ∉ domain ∧ ∃ v ∈ policy.verifiedDomains, eqIgnoreAsciiCase v.toList domain = true := by
  unfold authorizeDomainJoin at h
  rw [bind_eq_ok_iff] at h
  obtain ⟨⟨n, d⟩, hparse, h⟩ := h
  dsimp only at h
  rw [refuse_eq_ok_iff, Bool.not_eq_true', Bool.not_eq_false, Bool.and_eq_true] at h
  obtain ⟨v, hv, hsame⟩ := List.any_eq_true.mp h.1.2
  obtain ⟨localPart, hparsed, hn⟩ := parsed_of_parseEmail hparse
  -- The `@` of the normalized text stands where it stood before.
  have hlower : toAsciiLowercase (trim email.toList) = localPart ++ '@' :: d.toList :=
    hn.symm.trans hparsed.split
  obtain ⟨front, rest, htext, hfront, hrest⟩ := List.map_eq_append_iff.mp hlower
  obtain ⟨at', domain, hat, hat', hdomain⟩ := List.map_eq_cons_iff.mp hrest
  have hat' : at' = '@' := (toLower_eq_iff (by decide)).mp hat'
  subst hat hat'
  refine ⟨front, domain, htext, fun hmem => hparsed.first ?_, fun hmem => hparsed.only ?_,
    v, hv, ?_⟩
  · rw [← hfront]
    exact (mem_toAsciiLowercase (by decide)).mpr hmem
  · rw [← hdomain]
    exact (mem_toAsciiLowercase (by decide)).mpr hmem
  · unfold eqIgnoreAsciiCase at hsame ⊢
    rw [← hdomain] at hsame
    rwa [show toAsciiLowercase (domain.map Char.toLower) = toAsciiLowercase domain from
      toAsciiLowercase_idem domain] at hsame

/-- An accepted address has one normal form, shared by exactly the texts that are
alike.  An invitation opens for the addresses with the normal form it was created
for, and a domain is joined by addresses that carry it behind their only `@`. -/
theorem invitation_address_exact :
    (∀ raw n d, parseEmail raw = .ok (n, d) →
      (∃ localPart, n = localPart ++ "@" ++ d) ∧ n.toList.count '@' = 1 ∧
        (∀ c ∈ n.toList, isWhitespace c = false ∧ c.isUpper = false) ∧
          parseEmail n = .ok (n, d)) ∧
    (∀ a b n d n' d', parseEmail a = .ok (n, d) → parseEmail b = .ok (n', d') →
      (n = n' ↔ Alike a b)) ∧
    (∀ actor granted invited seats policy n,
      authorizeInvitation actor granted invited seats policy = .ok n →
        ∀ invitation : Invitation, invitation.email = n → ∀ email seats' now,
        invitation.isOpen now = true →
          ((acceptInvitation invitation email seats' now ≠ .error .invalidEmail ∧
            acceptInvitation invitation email seats' now ≠ .error .invitationAddressMismatch) ↔
              ∃ d, parseEmail email = .ok (n, d))) ∧
    ∀ email seats policy role, authorizeDomainJoin email seats policy = .ok role →
      ∃ localPart domain, trim email.toList = localPart ++ '@' :: domain ∧ '@' ∉ localPart ∧
        '@' ∉ domain ∧
          ∃ v ∈ policy.verifiedDomains, eqIgnoreAsciiCase v.toList domain = true := by
  refine ⟨fun raw n d h => ?_, fun a b n d n' d' ha hb => ?_,
    fun actor granted invited seats policy n h invitation hn email seats' now hopen => ?_,
    fun email seats policy role => domain_of_authorizeDomainJoin⟩
  · obtain ⟨localPart, hparsed, _⟩ := parsed_of_parseEmail h
    refine ⟨⟨.ofList localPart, ?_⟩, ?_, fun c hc => ⟨hparsed.solid c hc, ?_⟩,
      parseEmail_normalized h⟩
    · rw [← String.toList_inj, hparsed.split, String.toList_append, String.toList_append,
        String.toList_ofList, List.append_assoc]
      rfl
    · rw [hparsed.split, List.count_append, List.count_cons_self,
        List.count_eq_zero.mpr hparsed.first, List.count_eq_zero.mpr hparsed.only]
    · rw [← hparsed.lower] at hc
      obtain ⟨c', _, rfl⟩ := List.mem_map.mp hc
      exact isUpper_toLower c'
  · obtain ⟨_, _, hna⟩ := parsed_of_parseEmail ha
    obtain ⟨_, _, hnb⟩ := parsed_of_parseEmail hb
    rw [← normalize_eq_iff, ← hna, ← hnb, String.toList_inj]
  · obtain ⟨_, _, d, hparse, _⟩ := authorizeInvitation_eq_ok_iff.mp h
    subst hn
    refine acceptInvitation_address_iff hopen ?_
    obtain ⟨_, _, hraw⟩ := parsed_of_parseEmail hparse
    rw [normalize_of_parseEmail hparse, ← hraw, String.ofList_toList]

theorem invitation_address_exact_of_acme :
    let invitation : Invitation := ⟨"alex@acme.test", .member, .opened, 10⟩
    parseEmail "alex@acme.test" = .ok ("alex@acme.test", "acme.test") ∧
      acceptInvitation invitation "ALEX@acme.test " ⟨9, 0, 1⟩ 5 ≠
        .error .invitationAddressMismatch := by
  intro invitation
  have hinvite : authorizeInvitation .owner .member " Alex@ACME.Test" ⟨9, 0, 0⟩ {} =
      .ok "alex@acme.test" := by decide +kernel
  have hparse : parseEmail "ALEX@acme.test " = .ok ("alex@acme.test", "acme.test") := by
    decide +kernel
  obtain ⟨hform, _, haccept, _⟩ := invitation_address_exact
  have hpasses := haccept _ _ _ _ _ _ hinvite invitation rfl "ALEX@acme.test " ⟨9, 0, 1⟩ 5 rfl
  exact ⟨(hform _ _ _ hparse).2.2.2, (hpasses.mpr ⟨_, hparse⟩).2⟩

end Tenancy
end IndieWorker
