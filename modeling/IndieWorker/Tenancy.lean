import IndieWorker.Lib.Decision
import IndieWorker.Lib.Overflow
import IndieWorker.Lib.Text
import Mathlib.Order.Basic

/-!
# Organizations, seats and invitations

The values and the five decisions of `src/runtime/tenancy.rs`.  Each decision
has one lemma that says when it allows the step; the modules above use only
those.
-/

namespace IndieWorker
namespace Tenancy

/-- What a member may do inside an organization.  Every role implies the ones
below it. -/
inductive Role where
  | viewer
  | member
  | admin
  | owner
  deriving DecidableEq, Repr

namespace Role

def rank : Role → Nat
  | viewer => 0
  | member => 1
  | admin => 2
  | owner => 3

theorem rank_injective : Function.Injective rank := by
  intro a b h
  cases a <;> cases b <;> first | rfl | cases h

instance : LinearOrder Role := LinearOrder.lift' rank rank_injective

def atLeast (r required : Role) : Bool := required ≤ r

/-- A viewer still occupies a seat. -/
def consumesSeat (_ : Role) : Bool := true

end Role

/-- A seat ledger, computed from memberships and invitations. -/
structure Seats where
  purchased : UInt32
  occupied : UInt32
  reserved : UInt32
  deriving DecidableEq, Repr

namespace Seats

def available (s : Seats) : UInt32 :=
  saturatingSub32 s.purchased (saturatingAdd32 s.occupied s.reserved)

def hasRoom (s : Seats) : Bool := 0 < s.available

theorem hasRoom_iff (s : Seats) :
    s.hasRoom = true ↔ s.occupied.toNat + s.reserved.toNat < s.purchased.toNat := by
  have hp := s.purchased.toNat_lt
  rw [hasRoom, decide_eq_true_iff, UInt32.lt_iff_toNat_lt, available, saturatingSub32_toNat,
    saturatingAdd32_toNat, UInt32.toNat_zero]
  omega

end Seats

/-- Why a step was refused. -/
inductive OnboardingError where
  | noSeatsAvailable (purchased occupied reserved : UInt32)
  | domainNotAllowed (domain : String)
  | invitationNotOpen
  | invitationAddressMismatch
  | lastOwner
  | roleEscalation (actor granted : Role)
  | invalidEmail
  deriving DecidableEq, Repr

inductive InvitationState where
  | opened
  | accepted
  | revoked
  | expired
  deriving DecidableEq, Repr

structure Invitation where
  email : String
  role : Role
  state : InvitationState
  expiresAt : Int
  deriving DecidableEq, Repr

def Invitation.isOpen (i : Invitation) (now : Int) : Bool :=
  i.state == .opened && now < i.expiresAt

/-- An organization's joining policy. -/
structure JoinPolicy where
  verifiedDomains : List String := []
  domainJoinEnabled : Bool := false
  restrictInvitationsToVerifiedDomains : Bool := false
  defaultRole : Role := .viewer
  deriving DecidableEq, Repr

def JoinPolicy.verifies (policy : JoinPolicy) (domain : String) : Bool :=
  policy.verifiedDomains.any fun d => Text.eqIgnoreAsciiCase d.toList domain.toList

/-- Are the parts of `value` around the `@` an address we could deliver to? -/
def isPlausible (value localPart domain : List Char) : Bool :=
  localPart ≠ [] && (String.ofList localPart).utf8ByteSize ≤ 64 && domain ≠ [] &&
    (String.ofList domain).utf8ByteSize ≤ 255 && domain.contains '.' && domain.head? ≠ some '.' &&
      domain.getLast? ≠ some '.' && !Text.contains ['.', '.'] domain &&
        (domain.all fun c => c.isAlphanum || c == '.' || c == '-') &&
          !value.any Text.isWhitespace

/-- `raw.trim().to_ascii_lowercase()`. -/
def normalize (raw : String) : List Char := Text.toAsciiLowercase (Text.trim raw.toList)

/-- The normalized address and its domain. -/
def parseEmail (raw : String) : Except OnboardingError (String × String) :=
  let value := normalize raw
  match Text.splitOnce '@' value with
  | none => .error .invalidEmail
  | some (localPart, domain) =>
    if isPlausible value localPart domain then .ok (.ofList value, .ofList domain)
    else .error .invalidEmail

def noSeats {α : Type} (seats : Seats) : Except OnboardingError α :=
  .error (.noSeatsAvailable seats.purchased seats.occupied seats.reserved)

/-- May `actor` invite `email` as `granted` right now? -/
def authorizeInvitation (actor granted : Role) (email : String) (seats : Seats)
    (policy : JoinPolicy) : Except OnboardingError String :=
  if !actor.atLeast .admin then .error (.roleEscalation actor granted)
  else if granted > actor then .error (.roleEscalation actor granted)
  else do
    let (normalized, domain) ← parseEmail email
    if policy.restrictInvitationsToVerifiedDomains && !policy.verifies domain then
      .error (.domainNotAllowed domain)
    else if granted.consumesSeat && !seats.hasRoom then noSeats seats
    else .ok normalized

/-- Accept an invitation: the role the new member holds. -/
def acceptInvitation (invitation : Invitation) (acceptingEmail : String) (seats : Seats)
    (now : Int) : Except OnboardingError Role :=
  if !invitation.isOpen now then .error .invitationNotOpen
  else do
    let (normalized, _) ← parseEmail acceptingEmail
    if normalized ≠ .ofList (normalize invitation.email) then .error .invitationAddressMismatch
    -- The ledger it reads still counts this invitation as reserved.
    else if seats.occupied ≥ seats.purchased ∧ seats.reserved = 0 then noSeats seats
    else .ok invitation.role

/-- May this address join without an invitation? -/
def authorizeDomainJoin (email : String) (seats : Seats) (policy : JoinPolicy) :
    Except OnboardingError Role := do
  let (_, domain) ← parseEmail email
  if !(policy.domainJoinEnabled && policy.verifies domain) then .error (.domainNotAllowed domain)
  else if !seats.hasRoom then noSeats seats
  else .ok policy.defaultRole

/-- May `actor` change a member's role from `current` to `next`? -/
def authorizeRoleChange (actor current next : Role) (ownerCount : UInt32) :
    Except OnboardingError Unit :=
  if !actor.atLeast .admin || next > actor || current > actor then
    .error (.roleEscalation actor next)
  else if current = .owner ∧ next ≠ .owner ∧ ownerCount ≤ 1 then .error .lastOwner
  else .ok ()

/-- May `actor` remove a member who holds `target`? -/
def authorizeRemoval (actor target : Role) (ownerCount : UInt32) : Except OnboardingError Unit :=
  if !actor.atLeast .admin || target > actor then .error (.roleEscalation actor target)
  else if target = .owner ∧ ownerCount ≤ 1 then .error .lastOwner
  else .ok ()

/-! ## When a decision allows the step -/

open Decision

theorem Role.not_atLeast_iff {r required : Role} :
    ¬ (!r.atLeast required) = true ↔ required ≤ r := by
  simp [atLeast]

theorem authorizeInvitation_eq_ok_iff {actor granted : Role} {email normalized : String}
    {seats : Seats} {policy : JoinPolicy} :
    authorizeInvitation actor granted email seats policy = .ok normalized ↔
      .admin ≤ actor ∧ granted ≤ actor ∧
        ∃ domain, parseEmail email = .ok (normalized, domain) ∧
          (policy.restrictInvitationsToVerifiedDomains = true → policy.verifies domain = true) ∧
            seats.hasRoom = true := by
  rw [authorizeInvitation, refuse_eq_ok_iff, refuse_eq_ok_iff, bind_eq_ok_iff,
    Role.not_atLeast_iff, not_lt]
  refine and_congr_right fun _ => and_congr_right fun _ => ?_
  constructor
  · intro ⟨⟨n, d⟩, hparse, h⟩
    rw [refuse_eq_ok_iff, noSeats, refuse_eq_ok_iff] at h
    obtain ⟨hdomain, hroom, hn⟩ := h
    cases hn
    exact ⟨d, hparse, by simpa using hdomain, by simpa [Role.consumesSeat] using hroom⟩
  · intro ⟨d, hparse, hdomain, hroom⟩
    refine ⟨(normalized, d), hparse, ?_⟩
    rw [refuse_eq_ok_iff, noSeats, refuse_eq_ok_iff]
    exact ⟨by simpa using hdomain, by simp [hroom], rfl⟩

theorem acceptInvitation_eq_ok_iff {invitation : Invitation} {email : String} {seats : Seats}
    {now : Int} {role : Role} :
    acceptInvitation invitation email seats now = .ok role ↔
      invitation.isOpen now = true ∧
        (∃ domain, parseEmail email = .ok (.ofList (normalize invitation.email), domain)) ∧
        ¬ (seats.occupied ≥ seats.purchased ∧ seats.reserved = 0) ∧ role = invitation.role := by
  rw [acceptInvitation, refuse_eq_ok_iff, bind_eq_ok_iff]
  refine and_congr (by simp) ?_
  constructor
  · intro ⟨⟨n, d⟩, hparse, h⟩
    rw [refuse_eq_ok_iff, noSeats, refuse_eq_ok_iff] at h
    obtain ⟨haddress, hseat, hrole⟩ := h
    cases hrole
    exact ⟨⟨d, by rw [hparse, not_not.mp haddress]⟩, hseat, rfl⟩
  · intro ⟨⟨d, hparse⟩, hseat, hrole⟩
    refine ⟨(_, d), hparse, ?_⟩
    rw [refuse_eq_ok_iff, noSeats, refuse_eq_ok_iff]
    exact ⟨not_not.mpr rfl, hseat, by rw [hrole]⟩

theorem authorizeDomainJoin_eq_ok_iff {email : String} {seats : Seats} {policy : JoinPolicy}
    {role : Role} :
    authorizeDomainJoin email seats policy = .ok role ↔
      (∃ normalized domain, parseEmail email = .ok (normalized, domain) ∧
        policy.domainJoinEnabled = true ∧ policy.verifies domain = true) ∧
          seats.hasRoom = true ∧ role = policy.defaultRole := by
  rw [authorizeDomainJoin, bind_eq_ok_iff]
  constructor
  · intro ⟨⟨n, d⟩, hparse, h⟩
    rw [refuse_eq_ok_iff, noSeats, refuse_eq_ok_iff] at h
    obtain ⟨hallowed, hroom, hrole⟩ := h
    cases hrole
    exact ⟨⟨n, d, hparse, by simpa using hallowed⟩, by simpa using hroom, rfl⟩
  · intro ⟨⟨n, d, hparse, hallowed⟩, hroom, hrole⟩
    refine ⟨(n, d), hparse, ?_⟩
    rw [refuse_eq_ok_iff, noSeats, refuse_eq_ok_iff]
    exact ⟨by simpa using hallowed, by simp [hroom], by rw [hrole]⟩

theorem authorizeRoleChange_eq_ok_iff {actor current next : Role} {ownerCount : UInt32} :
    authorizeRoleChange actor current next ownerCount = .ok () ↔
      .admin ≤ actor ∧ next ≤ actor ∧ current ≤ actor ∧
        ¬ (current = .owner ∧ next ≠ .owner ∧ ownerCount ≤ 1) := by
  rw [authorizeRoleChange, refuse_eq_ok_iff, refuse_eq_ok_iff]
  simp [Role.atLeast, and_assoc]

theorem authorizeRemoval_eq_ok_iff {actor target : Role} {ownerCount : UInt32} :
    authorizeRemoval actor target ownerCount = .ok () ↔
      .admin ≤ actor ∧ target ≤ actor ∧ ¬ (target = .owner ∧ ownerCount ≤ 1) := by
  rw [authorizeRemoval, refuse_eq_ok_iff, refuse_eq_ok_iff]
  simp [Role.atLeast, and_assoc]

end Tenancy
end IndieWorker
