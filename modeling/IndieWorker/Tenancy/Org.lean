import IndieWorker.Lib.Pool
import IndieWorker.Lib.Run
import IndieWorker.Tenancy

/-!
# An organization over time

The rows of one organization, and the operations on them.  An operation is
performed only when the decision of `src/runtime/tenancy.rs` it belongs to
allows it, on a ledger computed from the rows at that moment; otherwise the rows
stay as they were.
-/

namespace IndieWorker
namespace Tenancy

open Decision Run

abbrev MemberId := Nat

structure Member where
  id : MemberId
  role : Role
  deriving DecidableEq, Repr

/-- The rows of an organization and the time.  A member holds one row. -/
structure Org where
  members : List Member
  unique : (members.map Member.id).Nodup
  invitations : List Invitation
  purchased : UInt32
  now : Int

/-- What can be asked of an organization.  An actor is given by the role it
holds; policies are those in force at the moment. -/
inductive Op where
  | invite (actor granted : Role) (email : String) (policy : JoinPolicy) (expiresAt : Int)
  | accept (invitation : Nat) (email : String) (joiner : MemberId)
  | domainJoin (email : String) (policy : JoinPolicy) (joiner : MemberId)
  | changeRole (actor : Role) (target : MemberId) (next : Role)
  | remove (actor : Role) (target : MemberId)
  | revoke (invitation : Nat)
  | expire (invitation : Nat)
  | setPurchased (total : UInt32)
  | wait (seconds : Nat)
  deriving DecidableEq, Repr

/-- Why an operation left the rows alone. -/
inductive Refusal where
  | onboarding (e : OnboardingError)
  | unknownMember
  | alreadyMember
  | unknownInvitation
  | invitationNotOpen
  deriving DecidableEq, Repr

namespace Org

/-! ## Ledgers computed from the rows -/

def openInvitations (o : Org) : Nat := o.invitations.countP (·.isOpen o.now)

def owners (o : Org) : Nat := o.members.countP (·.role == .owner)

def seats (o : Org) : Seats := ⟨o.purchased, count32 o.members.length, count32 o.openInvitations⟩

def ownerCount (o : Org) : UInt32 := count32 o.owners

def ids (o : Org) : List MemberId := o.members.map Member.id

def find (o : Org) (id : MemberId) : Option Member := o.members.find? (·.id == id)

/-! ## Changes of the rows -/

/-- A new row for someone who holds none. -/
def join (o : Org) (id : MemberId) (role : Role) : Except Refusal Org :=
  if fresh : id ∈ o.ids then .error .alreadyMember
  else .ok { o with
    members := o.members ++ [⟨id, role⟩]
    unique := by
      rw [List.map_append, List.nodup_append]
      refine ⟨o.unique, List.nodup_singleton _, fun a ha b hb hab => fresh ?_⟩
      have hid : b = id := List.mem_singleton.mp hb
      rw [← hid, ← hab]
      exact ha }

/-- The member's row after a change of role. -/
def regraded (id : MemberId) (role : Role) (m : Member) : Member :=
  if m.id = id then ⟨m.id, role⟩ else m

theorem regraded_id (id : MemberId) (role : Role) (m : Member) :
    (regraded id role m).id = m.id := by
  unfold regraded
  split <;> rfl

def setRole (o : Org) (id : MemberId) (role : Role) : Org :=
  { o with
    members := o.members.map (regraded id role)
    unique := by
      have hids : Member.id ∘ regraded id role = Member.id := funext (regraded_id id role)
      rw [List.map_map, hids]
      exact o.unique }

def drop (o : Org) (id : MemberId) : Org :=
  { o with
    members := o.members.filter (·.id != id)
    unique := o.unique.sublist (List.filter_sublist.map Member.id) }

def invite (o : Org) (invitation : Invitation) : Org :=
  { o with invitations := o.invitations ++ [invitation] }

/-- Move the `i`-th invitation, which is `invitation`, to another state. -/
def setState (o : Org) (i : Nat) (invitation : Invitation) (state : InvitationState) : Org :=
  { o with invitations := o.invitations.set i { invitation with state := state } }

/-- An organization with only the owner who signed it up. -/
def founded (purchased : UInt32) : Org := ⟨[⟨0, .owner⟩], List.nodup_singleton 0, [], purchased, 0⟩

/-! ## Operations -/

/-- Move an invitation that is still marked open. -/
def close (o : Org) (i : Nat) (due : Invitation → Bool) (state : InvitationState) :
    Except Refusal Org :=
  match o.invitations[i]? with
  | none => .error .unknownInvitation
  | some invitation =>
    if !(invitation.state == .opened && due invitation) then .error .invitationNotOpen
    else .ok (o.setState i invitation state)

def accept (o : Org) (i : Nat) (email : String) (joiner : MemberId) : Except Refusal Org :=
  match o.invitations[i]? with
  | none => .error .unknownInvitation
  | some invitation => do
    let role ← (acceptInvitation invitation email o.seats o.now).mapError .onboarding
    (o.setState i invitation .accepted).join joiner role

def changeRole (o : Org) (actor : Role) (target : MemberId) (next : Role) : Except Refusal Org :=
  match o.find target with
  | none => .error .unknownMember
  | some m => do
    (authorizeRoleChange actor m.role next o.ownerCount).mapError .onboarding
    return o.setRole target next

def remove (o : Org) (actor : Role) (target : MemberId) : Except Refusal Org :=
  match o.find target with
  | none => .error .unknownMember
  | some m => do
    (authorizeRemoval actor m.role o.ownerCount).mapError .onboarding
    return o.drop target

def apply (o : Org) : Op → Except Refusal Org
  | .invite actor granted email policy expiresAt => do
    let normalized ←
      (authorizeInvitation actor granted email o.seats policy).mapError .onboarding
    return o.invite ⟨normalized, granted, .opened, expiresAt⟩
  | .accept i email joiner => o.accept i email joiner
  | .domainJoin email policy joiner => do
    let role ← (authorizeDomainJoin email o.seats policy).mapError .onboarding
    o.join joiner role
  | .changeRole actor target next => o.changeRole actor target next
  | .remove actor target => o.remove actor target
  | .revoke i => o.close i (fun _ => true) .revoked
  | .expire i => o.close i (fun invitation => invitation.expiresAt ≤ o.now) .expired
  | .setPurchased total => .ok { o with purchased := total }
  | .wait seconds => .ok { o with now := o.now + seconds }

/-- A refused operation leaves the rows as they were. -/
def step (o : Org) (op : Op) : Option (Org × Except Refusal Unit) :=
  match o.apply op with
  | .ok o' => some (o', .ok ())
  | .error e => some (o, .error e)

abbrev Step := Entry Org Op (Except Refusal Unit)

def history (o : Org) (ops : List Op) : List Step := trace step o ops

def after (o : Org) (ops : List Op) : Org := final step o ops

/-- A step performs the operation, or refuses it and changes nothing. -/
theorem step_cases {o o' : Org} {op : Op} {r : Except Refusal Unit}
    (h : o.step op = some (o', r)) :
    (r = .ok () ∧ o.apply op = .ok o') ∨ (∃ e, r = .error e ∧ o' = o) := by
  unfold step at h
  rcases hap : o.apply op with e | p
  · rw [hap] at h
    cases h
    exact Or.inr ⟨e, rfl, rfl⟩
  · rw [hap] at h
    cases h
    exact Or.inl ⟨rfl, rfl⟩

/-! ## What each operation does -/

variable {o o' : Org}

theorem join_eq_ok_iff {id : MemberId} {role : Role} :
    o.join id role = .ok o' ↔ id ∉ o.ids ∧ o'.members = o.members ++ [⟨id, role⟩] ∧
      o'.invitations = o.invitations ∧ o'.purchased = o.purchased ∧ o'.now = o.now := by
  unfold join
  split
  · next h => simp [h]
  · next h =>
    obtain ⟨members, unique, invitations, purchased, now⟩ := o'
    simp only [Except.ok.injEq, Org.mk.injEq, h, not_false_eq_true, true_and]
    exact ⟨fun ⟨h₁, h₂, h₃, h₄⟩ => ⟨h₁.symm, h₂.symm, h₃.symm, h₄.symm⟩,
      fun ⟨h₁, h₂, h₃, h₄⟩ => ⟨h₁.symm, h₂.symm, h₃.symm, h₄.symm⟩⟩

theorem apply_invite {actor granted : Role} {email : String} {policy : JoinPolicy}
    {expiresAt : Int} (h : o.apply (.invite actor granted email policy expiresAt) = .ok o') :
    ∃ normalized, authorizeInvitation actor granted email o.seats policy = .ok normalized ∧
      o' = o.invite ⟨normalized, granted, .opened, expiresAt⟩ := by
  rw [apply, bind_eq_ok_iff] at h
  obtain ⟨normalized, hok, ho'⟩ := h
  rw [mapError_eq_ok_iff] at hok
  cases ho'
  exact ⟨normalized, hok, rfl⟩

theorem accept_eq_ok_iff {i : Nat} {email : String} {joiner : MemberId} :
    o.accept i email joiner = .ok o' ↔
      ∃ invitation role, o.invitations[i]? = some invitation ∧
        acceptInvitation invitation email o.seats o.now = .ok role ∧
          (o.setState i invitation .accepted).join joiner role = .ok o' := by
  unfold accept
  rcases o.invitations[i]? with _ | invitation
  · simp
  · simp only [bind_eq_ok_iff, mapError_eq_ok_iff, Option.some.injEq]
    constructor
    · intro ⟨role, hok, hjoin⟩
      exact ⟨invitation, role, rfl, hok, hjoin⟩
    · intro ⟨_, role, hinv, hok, hjoin⟩
      cases hinv
      exact ⟨role, hok, hjoin⟩

theorem apply_domainJoin {email : String} {policy : JoinPolicy} {joiner : MemberId}
    (h : o.apply (.domainJoin email policy joiner) = .ok o') :
    ∃ role, authorizeDomainJoin email o.seats policy = .ok role ∧
      o.join joiner role = .ok o' := by
  rw [apply, bind_eq_ok_iff] at h
  obtain ⟨role, hok, hjoin⟩ := h
  exact ⟨role, mapError_eq_ok_iff.mp hok, hjoin⟩

theorem find_mem {id : MemberId} {m : Member} (h : o.find id = some m) :
    m ∈ o.members ∧ m.id = id :=
  ⟨List.mem_of_find?_eq_some h, by simpa using List.find?_some h⟩

theorem changeRole_ok {actor next : Role} {target : MemberId}
    (h : o.changeRole actor target next = .ok o') :
    ∃ m ∈ o.members, m.id = target ∧
      authorizeRoleChange actor m.role next o.ownerCount = .ok () ∧
        o' = o.setRole target next := by
  unfold changeRole at h
  rcases hfind : o.find target with _ | m
  · rw [hfind] at h
    cases h
  · rw [hfind] at h
    simp only [bind_eq_ok_iff, mapError_eq_ok_iff] at h
    obtain ⟨_, hok, ho'⟩ := h
    cases ho'
    exact ⟨m, (find_mem hfind).1, (find_mem hfind).2, hok, rfl⟩

theorem remove_ok {actor : Role} {target : MemberId} (h : o.remove actor target = .ok o') :
    ∃ m ∈ o.members, m.id = target ∧ authorizeRemoval actor m.role o.ownerCount = .ok () ∧
      o' = o.drop target := by
  unfold remove at h
  rcases hfind : o.find target with _ | m
  · rw [hfind] at h
    cases h
  · rw [hfind] at h
    simp only [bind_eq_ok_iff, mapError_eq_ok_iff] at h
    obtain ⟨_, hok, ho'⟩ := h
    cases ho'
    exact ⟨m, (find_mem hfind).1, (find_mem hfind).2, hok, rfl⟩

theorem close_ok {i : Nat} {due : Invitation → Bool} {state : InvitationState}
    (h : o.close i due state = .ok o') :
    ∃ invitation, o.invitations[i]? = some invitation ∧ o' = o.setState i invitation state := by
  unfold close at h
  rcases hinv : o.invitations[i]? with _ | invitation
  · rw [hinv] at h
    cases h
  · rw [hinv] at h
    simp only [refuse_eq_ok_iff] at h
    exact ⟨invitation, rfl, (Except.ok.inj h.2).symm⟩

end Org

end Tenancy
end IndieWorker
