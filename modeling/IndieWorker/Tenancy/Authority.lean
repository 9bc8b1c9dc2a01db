import IndieWorker.Tenancy.Org
import Mathlib.Data.Set.Basic

/-!
# Who may change whom

An organization keeps an owner, and a group of members cannot climb above the
highest role it starts with, whatever it does and in whatever order.
-/

namespace IndieWorker
namespace Tenancy
namespace Org

open Decision Run

variable {o o' : Org}

/-- An identifier names one member. -/
theorem eq_of_id_eq {m n : Member} (hm : m ∈ o.members) (hn : n ∈ o.members) (h : m.id = n.id) :
    m = n :=
  List.inj_on_of_nodup_map o.unique hm hn h

theorem mem_setRole {m : Member} {id : MemberId} {role : Role} :
    m ∈ (o.setRole id role).members ↔ ∃ m₀ ∈ o.members, regraded id role m₀ = m :=
  List.mem_map

theorem mem_drop {m : Member} {id : MemberId} :
    m ∈ (o.drop id).members ↔ m ∈ o.members ∧ m.id ≠ id := by
  show m ∈ o.members.filter (·.id != id) ↔ _
  rw [List.mem_filter, bne_iff_ne]

theorem regraded_of_eq {id : MemberId} {role : Role} {m : Member} (h : m.id = id) :
    regraded id role m = ⟨m.id, role⟩ :=
  if_pos h

theorem regraded_of_ne {id : MemberId} {role : Role} {m : Member} (h : m.id ≠ id) :
    regraded id role m = m :=
  if_neg h

/-! ## There is always an owner -/

def HasOwner (o : Org) : Prop := ∃ m ∈ o.members, m.role = .owner

/-- Two owners do not share an identifier. -/
theorem other_owner (id : MemberId) (h : 1 < o.owners) :
    ∃ m ∈ o.members, m.role = .owner ∧ m.id ≠ id := by
  by_contra hnone
  have hall : ∀ m ∈ o.members.filter (·.role == .owner), m.id = id := by
    intro m hm
    obtain ⟨hmem, hrole⟩ := List.mem_filter.mp hm
    by_contra hne
    exact hnone ⟨m, hmem, by simpa using hrole, hne⟩
  have hids : (o.members.filter (·.role == .owner)).map Member.id =
      List.replicate o.owners id := by
    rw [List.eq_replicate_iff, List.length_map, owners, List.countP_eq_length_filter]
    refine ⟨rfl, fun a ha => ?_⟩
    obtain ⟨m, hm, rfl⟩ := List.mem_map.mp ha
    exact hall m hm
  have hnodup : (List.replicate o.owners id).Nodup := by
    rw [← hids]
    exact o.unique.sublist (List.filter_sublist.map Member.id)
  have hle := List.nodup_replicate.mp hnodup
  omega

/-- When the member concerned is not the last owner, there is an owner besides. -/
theorem owner_besides {m : Member} (howner : o.HasOwner) (hm : m ∈ o.members)
    (hlast : ¬ (m.role = .owner ∧ o.ownerCount ≤ 1)) :
    ∃ w ∈ o.members, w.role = .owner ∧ w.id ≠ m.id := by
  by_cases hrole : m.role = .owner
  · refine other_owner m.id ?_
    have hcount : ¬ (count32 o.owners).toNat ≤ 1 :=
      fun h => hlast ⟨hrole, UInt32.le_iff_toNat_le.mpr h⟩
    rw [count32_toNat] at hcount
    omega
  · obtain ⟨w, hw, hwrole⟩ := howner
    refine ⟨w, hw, hwrole, fun hid => hrole ?_⟩
    rw [← eq_of_id_eq hw hm hid, hwrole]

theorem setRole_hasOwner {m : Member} {next : Role} (howner : o.HasOwner) (hm : m ∈ o.members)
    (hlast : ¬ (m.role = .owner ∧ next ≠ .owner ∧ o.ownerCount ≤ 1)) :
    (o.setRole m.id next).HasOwner := by
  by_cases hnext : next = .owner
  · exact ⟨_, mem_setRole.mpr ⟨m, hm, regraded_of_eq rfl⟩, hnext⟩
  · obtain ⟨w, hw, hrole, hid⟩ :=
      owner_besides howner hm fun h => hlast ⟨h.1, hnext, h.2⟩
    exact ⟨w, mem_setRole.mpr ⟨w, hw, regraded_of_ne hid⟩, hrole⟩

theorem join_hasOwner {id : MemberId} {role : Role} (howner : o.HasOwner)
    (h : o.join id role = .ok o') : o'.HasOwner := by
  obtain ⟨w, hw, hrole⟩ := howner
  refine ⟨w, ?_, hrole⟩
  rw [(join_eq_ok_iff.mp h).2.1]
  exact List.mem_append_left _ hw

/-- Every operation leaves an owner. -/
theorem apply_hasOwner {op : Op} (howner : o.HasOwner) (h : o.apply op = .ok o') : o'.HasOwner := by
  cases op with
  | invite actor granted email policy expiresAt =>
    obtain ⟨_, _, rfl⟩ := apply_invite h
    exact howner
  | accept i email joiner =>
    obtain ⟨_, _, _, _, hjoin⟩ := accept_eq_ok_iff.mp h
    exact join_hasOwner (o := o.setState i _ _) howner hjoin
  | domainJoin email policy joiner =>
    obtain ⟨_, _, hjoin⟩ := apply_domainJoin h
    exact join_hasOwner howner hjoin
  | changeRole actor target next =>
    obtain ⟨m, hm, rfl, hok, rfl⟩ := changeRole_ok h
    exact setRole_hasOwner howner hm (authorizeRoleChange_eq_ok_iff.mp hok).2.2.2
  | remove actor target =>
    obtain ⟨m, hm, rfl, hok, rfl⟩ := remove_ok h
    obtain ⟨w, hw, hrole, hid⟩ :=
      owner_besides howner hm (authorizeRemoval_eq_ok_iff.mp hok).2.2
    exact ⟨w, mem_drop.mpr ⟨hw, hid⟩, hrole⟩
  | revoke i =>
    obtain ⟨_, _, rfl⟩ := close_ok h
    exact howner
  | expire i =>
    obtain ⟨_, _, rfl⟩ := close_ok h
    exact howner
  | setPurchased total =>
    cases h
    exact howner
  | wait seconds =>
    cases h
    exact howner

theorem step_hasOwner {op : Op} {r : Except Refusal Unit} (howner : o.HasOwner)
    (hstep : o.step op = some (o', r)) : o'.HasOwner := by
  rcases step_cases hstep with ⟨_, hok⟩ | ⟨_, _, heq⟩
  · exact apply_hasOwner howner hok
  · rw [heq]
    exact howner

/-- An organization that has an owner has one after every step. -/
theorem always_an_owner (o : Org) (ops : List Op) (howner : o.HasOwner) :
    (∀ x ∈ history o ops, x.after.HasOwner) ∧ (after o ops).HasOwner :=
  state_invariant HasOwner (fun _ => True) (fun _ _ _ _ hs hstep _ => step_hasOwner hs hstep)
    howner fun _ _ => trivial

/-- The owner hands over and steps down; the new one, now the last, stays. -/
theorem always_an_owner_after_handover :
    ((founded 2).after [.invite .owner .owner "ann@acme.test" {} 10, .accept 0 "ann@acme.test" 1,
      .changeRole .owner 0 .viewer, .changeRole .owner 1 .member, .remove .owner 1]).HasOwner :=
  (always_an_owner (founded 2) _ ⟨⟨0, .owner⟩, by decide, rfl⟩).2

/-! ## A coalition does not climb -/

/-- The one who joined by this step through an invitation that is not among the
first `n`. -/
def recruit (n : Nat) : Op → Option MemberId
  | .accept i _ joiner => if n ≤ i then some joiner else none
  | _ => none

/-- Those in the coalition `C` after some steps: its members, and whoever joined
through an invitation that is not among the first `n`. -/
def Insider (C : Set MemberId) (n : Nat) (past : List Step) (id : MemberId) : Prop :=
  id ∈ C ∨ ∃ x ∈ past, x.output = .ok () ∧ recruit n x.event = some id

/-- Only those in `P` act, each with the role held at the moment, and only
invitations that are not among the first `n` are accepted. -/
def ActedBy (P : MemberId → Prop) (n : Nat) (o : Org) : Op → Prop
  | .invite actor _ _ _ _ => ∃ a ∈ o.members, P a.id ∧ a.role = actor
  | .changeRole actor _ _ => ∃ a ∈ o.members, P a.id ∧ a.role = actor
  | .remove actor _ => ∃ a ∈ o.members, P a.id ∧ a.role = actor
  | .accept i _ _ => n ≤ i
  | .domainJoin _ _ _ => False
  | _ => True

/-- Each operation of the run that is performed is one of the coalition. -/
def RunBy (C : Set MemberId) (n : Nat) (h : List Step) : Prop :=
  ∀ past x later, h = past ++ x :: later → x.output = .ok () →
    ActedBy (Insider C n past) n x.before x.event

/-- Nobody in `P` stands above `M`, and no invitation but the first `n` leads
above it. -/
structure Bounded (P : MemberId → Prop) (n : Nat) (M : Role) (o : Org) : Prop where
  members : ∀ m ∈ o.members, P m.id → m.role ≤ M
  invitations : ∀ r ∈ (o.invitations.map Invitation.role).drop n, r ≤ M
  issued : n ≤ o.invitations.length

/-- The members above `M` are the same. -/
def SameAbove (M : Role) (o o' : Org) : Prop :=
  ∀ m : Member, M < m.role → (m ∈ o'.members ↔ m ∈ o.members)

variable {P : MemberId → Prop} {n : Nat} {M : Role}

theorem map_role_setState {i : Nat} {invitation : Invitation} {state : InvitationState}
    (hi : o.invitations[i]? = some invitation) :
    (o.setState i invitation state).invitations.map Invitation.role =
      o.invitations.map Invitation.role := by
  obtain ⟨hlt, _⟩ := List.getElem?_eq_some_iff.mp hi
  refine List.ext_getElem? fun j => ?_
  show ((o.invitations.set i { invitation with state := state }).map Invitation.role)[j]? = _
  rw [List.getElem?_map, List.getElem?_map, List.getElem?_set]
  by_cases hj : i = j
  · subst hj
    rw [if_pos rfl, if_pos hlt, hi]
    rfl
  · rw [if_neg hj]

theorem Bounded.setState {i : Nat} {invitation : Invitation} {state : InvitationState}
    (hb : Bounded P n M o) (hi : o.invitations[i]? = some invitation) :
    Bounded P n M (o.setState i invitation state) where
  members := hb.members
  invitations := by
    rw [map_role_setState hi]
    exact hb.invitations
  issued := by
    show n ≤ (o.invitations.set i _).length
    rw [List.length_set]
    exact hb.issued

/-- An invitation that is not among the first `n` leads no higher than `M`. -/
theorem Bounded.invitation_le {i : Nat} {invitation : Invitation} (hb : Bounded P n M o)
    (hi : o.invitations[i]? = some invitation) (hn : n ≤ i) : invitation.role ≤ M := by
  refine hb.invitations _ (List.mem_of_getElem? (i := i - n) ?_)
  rw [List.getElem?_drop, List.getElem?_map, show n + (i - n) = i by omega, hi]
  rfl

theorem Bounded.invite {invitation : Invitation} (hb : Bounded P n M o)
    (hrole : invitation.role ≤ M) : Bounded P n M (o.invite invitation) where
  members := hb.members
  invitations := by
    intro r hr
    have hissued := hb.issued
    have hdrop : ((o.invite invitation).invitations.map Invitation.role).drop n =
        (o.invitations.map Invitation.role).drop n ++ [invitation.role] := by
      show ((o.invitations ++ [invitation]).map Invitation.role).drop n = _
      rw [List.map_append, List.drop_append_of_le_length (by rwa [List.length_map])]
      rfl
    rw [hdrop] at hr
    rcases List.mem_append.mp hr with hr | hr
    · exact hb.invitations r hr
    · rw [List.mem_singleton.mp hr]
      exact hrole
  issued := by
    show n ≤ (o.invitations ++ [invitation]).length
    rw [List.length_append]
    exact Nat.le_add_right_of_le hb.issued

/-- A newcomer who stands no higher than `M` joins those in `P`. -/
theorem Bounded.join {id : MemberId} {role : Role} (hb : Bounded P n M o) (hrole : role ≤ M)
    (h : o.join id role = .ok o') :
    Bounded (fun j => P j ∨ some id = some j) n M o' ∧ SameAbove M o o' := by
  obtain ⟨hfresh, hmembers, hinvitations, _, _⟩ := join_eq_ok_iff.mp h
  refine ⟨⟨fun m hm hP => ?_, ?_, ?_⟩, fun m hM => ?_⟩
  · rw [hmembers] at hm
    rcases List.mem_append.mp hm with hm | hm
    · rcases hP with hP | hid
      · exact hb.members m hm hP
      · refine absurd (List.mem_map.mpr ⟨m, hm, ?_⟩) hfresh
        exact (Option.some.inj hid).symm
    · rw [List.mem_singleton.mp hm]
      exact hrole
  · rw [hinvitations]
    exact hb.invitations
  · rw [hinvitations]
    exact hb.issued
  · rw [hmembers, List.mem_append, List.mem_singleton]
    constructor
    · intro hm
      rcases hm with hm | hm
      · exact hm
      · rw [hm] at hM
        exact absurd hrole (not_le.mpr hM)
    · exact Or.inl

/-- Changing someone who stands no higher than `M` to a role no higher. -/
theorem Bounded.setRole {m : Member} {next : Role} (hb : Bounded P n M o) (hm : m ∈ o.members)
    (hcurrent : m.role ≤ M) (hnext : next ≤ M) :
    Bounded P n M (o.setRole m.id next) ∧ SameAbove M o (o.setRole m.id next) := by
  refine ⟨⟨fun w hw hP => ?_, hb.invitations, hb.issued⟩, fun w hM => ?_⟩
  · obtain ⟨w₀, hw₀, rfl⟩ := mem_setRole.mp hw
    by_cases hid : w₀.id = m.id
    · rw [regraded_of_eq hid]
      exact hnext
    · rw [regraded_of_ne hid] at hP ⊢
      exact hb.members w₀ hw₀ hP
  · rw [mem_setRole]
    constructor
    · intro ⟨w₀, hw₀, hw⟩
      by_cases hid : w₀.id = m.id
      · rw [regraded_of_eq hid] at hw
        rw [← hw] at hM
        exact absurd hnext (not_le.mpr hM)
      · rw [regraded_of_ne hid] at hw
        rwa [← hw]
    · intro hw
      refine ⟨w, hw, regraded_of_ne fun hid => ?_⟩
      rw [eq_of_id_eq hw hm hid] at hM
      exact absurd hcurrent (not_le.mpr hM)

/-- Removing someone who stands no higher than `M`. -/
theorem Bounded.drop {m : Member} (hb : Bounded P n M o) (hm : m ∈ o.members)
    (hcurrent : m.role ≤ M) : Bounded P n M (o.drop m.id) ∧ SameAbove M o (o.drop m.id) := by
  refine ⟨⟨fun w hw hP => hb.members w (mem_drop.mp hw).1 hP, hb.invitations, hb.issued⟩,
    fun w hM => ?_⟩
  rw [mem_drop]
  refine ⟨And.left, fun hw => ⟨hw, fun hid => ?_⟩⟩
  rw [eq_of_id_eq hw hm hid] at hM
  exact absurd hcurrent (not_le.mpr hM)

theorem SameAbove.refl (M : Role) (o : Org) : SameAbove M o o := fun _ _ => Iff.rfl

/-- A wider group that is still bounded. -/
theorem Bounded.of_none {op : Op} (hb : Bounded P n M o) (h : recruit n op = none) :
    Bounded (fun j => P j ∨ recruit n op = some j) n M o := by
  refine ⟨fun m hm hP => hb.members m hm (hP.resolve_right ?_), hb.invitations, hb.issued⟩
  rw [h]
  exact (Option.some_ne_none _).symm

/-- One operation of the group keeps it bounded, with the newcomer in it, and
leaves those above it alone. -/
theorem Bounded.apply {op : Op} (hb : Bounded P n M o) (hact : ActedBy P n o op)
    (h : o.apply op = .ok o') :
    Bounded (fun j => P j ∨ recruit n op = some j) n M o' ∧ SameAbove M o o' := by
  have hactor : ∀ actor, (∃ a ∈ o.members, P a.id ∧ a.role = actor) → actor ≤ M := by
    intro actor ⟨a, ha, hP, hrole⟩
    rw [← hrole]
    exact hb.members a ha hP
  cases op with
  | invite actor granted email policy expiresAt =>
    obtain ⟨normalized, hok, rfl⟩ := apply_invite h
    have hgranted := (authorizeInvitation_eq_ok_iff.mp hok).2.1
    exact ⟨(hb.invite (hgranted.trans (hactor actor hact))).of_none rfl, SameAbove.refl M o⟩
  | accept i email joiner =>
    obtain ⟨invitation, role, hi, hok, hjoin⟩ := accept_eq_ok_iff.mp h
    have hrole : role ≤ M := by
      rw [(acceptInvitation_eq_ok_iff.mp hok).2.2.2]
      exact hb.invitation_le hi hact
    have hrecruit : recruit n (.accept i email joiner) = some joiner := if_pos hact
    rw [hrecruit]
    exact (hb.setState hi).join hrole hjoin
  | domainJoin email policy joiner => exact hact.elim
  | changeRole actor target next =>
    obtain ⟨m, hm, rfl, hok, rfl⟩ := changeRole_ok h
    obtain ⟨_, hnext, hcurrent, _⟩ := authorizeRoleChange_eq_ok_iff.mp hok
    have hM := hactor actor hact
    obtain ⟨hb', hsame⟩ := hb.setRole hm (hcurrent.trans hM) (hnext.trans hM)
    exact ⟨hb'.of_none rfl, hsame⟩
  | remove actor target =>
    obtain ⟨m, hm, rfl, hok, rfl⟩ := remove_ok h
    have hcurrent := (authorizeRemoval_eq_ok_iff.mp hok).2.1
    obtain ⟨hb', hsame⟩ := hb.drop hm (hcurrent.trans (hactor actor hact))
    exact ⟨hb'.of_none rfl, hsame⟩
  | revoke i =>
    obtain ⟨_, hi, rfl⟩ := close_ok h
    exact ⟨(hb.setState hi).of_none rfl, SameAbove.refl M o⟩
  | expire i =>
    obtain ⟨_, hi, rfl⟩ := close_ok h
    exact ⟨(hb.setState hi).of_none rfl, SameAbove.refl M o⟩
  | setPurchased total =>
    cases h
    exact ⟨⟨(hb.of_none rfl).members, hb.invitations, hb.issued⟩, SameAbove.refl M o⟩
  | wait seconds =>
    cases h
    exact ⟨⟨(hb.of_none rfl).members, hb.invitations, hb.issued⟩, SameAbove.refl M o⟩

theorem Bounded.mono {Q : MemberId → Prop} (hb : Bounded P n M o) (h : ∀ j, Q j → P j) :
    Bounded Q n M o :=
  ⟨fun m hm hQ => hb.members m hm (h _ hQ), hb.invitations, hb.issued⟩

theorem insider_concat {C : Set MemberId} {past : List Step} {x : Step} {id : MemberId}
    (h : Insider C n (past ++ [x]) id) :
    Insider C n past id ∨ (x.output = .ok () ∧ recruit n x.event = some id) := by
  rcases h with hC | ⟨y, hy, hout, hrecruit⟩
  · exact Or.inl (Or.inl hC)
  · rcases List.mem_append.mp hy with hy | hy
    · exact Or.inl (Or.inr ⟨y, hy, hout, hrecruit⟩)
    · rw [List.mem_singleton] at hy
      subst hy
      exact Or.inr ⟨hout, hrecruit⟩

theorem RunBy.of_concat {C : Set MemberId} {h : List Step} {x : Step}
    (hrun : RunBy C n (h ++ [x])) : RunBy C n h := by
  intro past y later heq
  refine hrun past y (later ++ [x]) ?_
  rw [heq, List.append_assoc, List.cons_append]

/-- A step of the coalition keeps it bounded. -/
theorem Bounded.step {C : Set MemberId} {past : List Step} {op : Op} {r : Except Refusal Unit}
    (hb : Bounded (Insider C n past) n M o) (hrun : RunBy C n (past ++ [⟨o, op, r, o'⟩]))
    (hstep : o.step op = some (o', r)) :
    Bounded (Insider C n (past ++ [⟨o, op, r, o'⟩])) n M o' ∧ SameAbove M o o' := by
  rcases step_cases hstep with ⟨hr, hok⟩ | ⟨e, hr, heq⟩
  · obtain ⟨hb', hsame⟩ := hb.apply (hrun past _ [] rfl hr) hok
    exact ⟨hb'.mono fun j hj => (insider_concat hj).imp_right And.right, hsame⟩
  · subst heq
    refine ⟨hb.mono fun j hj => (insider_concat hj).resolve_right fun hnew => ?_,
      SameAbove.refl M _⟩
    rw [hr] at hnew
    cases hnew.1

/-- Whatever a coalition does, with the accomplices it invites: it issues no
invitation above the highest role `M` it starts with, nobody gets above `M`, and
nobody above `M` is demoted or removed. -/
theorem no_escalation (o : Org) (C : Set MemberId) (M : Role)
    (hM : ∀ m ∈ o.members, m.id ∈ C → m.role ≤ M) (ops : List Op)
    (hrun : RunBy C o.invitations.length (history o ops)) :
    ∀ x ∈ history o ops,
      (∀ invitation ∈ x.after.invitations.drop o.invitations.length, invitation.role ≤ M) ∧
        SameAbove M x.before x.after := by
  have hstart : Bounded (Insider C o.invitations.length []) o.invitations.length M o := by
    refine ⟨fun m hm hin => hM m hm (hin.resolve_right ?_), ?_, Nat.le_refl _⟩
    · simp
    · rw [List.drop_eq_nil_of_le (by rw [List.length_map])]
      simp
  have hall := history_invariant_start
    (fun h s => RunBy C o.invitations.length h →
      Bounded (Insider C o.invitations.length h) o.invitations.length M s ∧ ∀ x ∈ h,
        (∀ invitation ∈ x.after.invitations.drop o.invitations.length, invitation.role ≤ M) ∧
          SameAbove M x.before x.after)
    (fun _ => ⟨hstart, by simp⟩) ?_ ops hrun
  · exact hall.2
  · intro h s op t r ih hstep hrun
    obtain ⟨hb, hall⟩ := ih hrun.of_concat
    obtain ⟨hb', hsame⟩ := hb.step hrun hstep
    refine ⟨hb', fun x hx => ?_⟩
    rcases List.mem_append.mp hx with hx | hx
    · exact hall x hx
    · rw [List.mem_singleton.mp hx]
      refine ⟨fun invitation hi => hb'.invitations _ ?_, hsame⟩
      rw [← List.map_drop]
      exact List.mem_map_of_mem hi

section Decidable

instance (C : Set MemberId) [DecidablePred (· ∈ C)] (n : Nat) (past : List Step) :
    DecidablePred (Insider C n past) := fun id =>
  inferInstanceAs (Decidable (id ∈ C ∨ ∃ x ∈ past, x.output = .ok () ∧ recruit n x.event = some id))

instance (P : MemberId → Prop) [DecidablePred P] (n : Nat) (o : Org) :
    (op : Op) → Decidable (ActedBy P n o op)
  | .invite actor _ _ _ _ => inferInstanceAs (Decidable (∃ a ∈ o.members, P a.id ∧ a.role = actor))
  | .changeRole actor _ _ => inferInstanceAs (Decidable (∃ a ∈ o.members, P a.id ∧ a.role = actor))
  | .remove actor _ => inferInstanceAs (Decidable (∃ a ∈ o.members, P a.id ∧ a.role = actor))
  | .accept i _ _ => inferInstanceAs (Decidable (n ≤ i))
  | .domainJoin _ _ _ => .isFalse id
  | .revoke _ => .isTrue trivial
  | .expire _ => .isTrue trivial
  | .setPurchased _ => .isTrue trivial
  | .wait _ => .isTrue trivial

theorem runBy_iff {C : Set MemberId} {h : List Step} :
    RunBy C n h ↔ ∀ i : Fin h.length, (h.get i).output = .ok () →
      ActedBy (Insider C n (h.take i)) n (h.get i).before (h.get i).event := by
  constructor
  · intro hrun i
    refine hrun (h.take i) (h.get i) (h.drop (i + 1)) ?_
    rw [List.get_eq_getElem, List.getElem_cons_drop, List.take_append_drop]
  · intro hall past x later heq
    subst heq
    simpa using hall ⟨past.length, by simp⟩

instance (C : Set MemberId) [DecidablePred (· ∈ C)] (n : Nat) (h : List Step) :
    Decidable (RunBy C n h) :=
  decidable_of_iff _ runBy_iff.symm

end Decidable

/-- An admin invites another, is demoted by that one, and neither can touch the
owner. -/
theorem no_escalation_of_two_admins :
    let o := (founded 3).after [.invite .owner .admin "ann@acme.test" {} 10,
      .accept 0 "ann@acme.test" 1]
    ∀ x ∈ history o [.invite .admin .admin "bob@acme.test" {} 10, .accept 1 "bob@acme.test" 2,
        .changeRole .admin 1 .viewer, .changeRole .admin 0 .viewer, .remove .admin 0],
      (∀ invitation ∈ x.after.invitations.drop 1, invitation.role ≤ .admin) ∧
        SameAbove .admin x.before x.after :=
  no_escalation _ {id | id = 1} .admin (by decide) _ (by decide)

end Org
end Tenancy
end IndieWorker
