import IndieWorker.Tenancy.Org

/-!
# Seats are never oversold

The members, open invitations and seats of an organization are a pool of units.
Every operation that is allowed is a move of that pool, so what moves preserve
holds along any run.
-/

namespace IndieWorker
namespace Tenancy
namespace Org

open Decision Run

/-- The seats of an organization, counted from its rows. -/
def pool (o : Org) : Pool := ⟨o.purchased.toNat, o.members.length, o.openInvitations⟩

/-- The saturated ledger shows room only when there is some. -/
theorem hasRoom_iff (o : Org) : o.seats.hasRoom = true ↔ o.pool.HasRoom := by
  have hp := o.purchased.toNat_lt
  rw [Seats.hasRoom_iff]
  show (count32 o.members.length).toNat + (count32 o.openInvitations).toNat < o.purchased.toNat ↔
    o.members.length + o.openInvitations < o.purchased.toNat
  rw [count32_toNat, count32_toNat]
  omega

/-! ## Counting open invitations -/

theorem openInvitations_invite (o : Org) (invitation : Invitation) :
    (o.invite invitation).openInvitations =
      o.openInvitations + (if invitation.isOpen o.now then 1 else 0) := by
  show (o.invitations ++ [invitation]).countP (·.isOpen o.now) = _
  rw [List.countP_append, List.countP_singleton]
  rfl

theorem not_isOpen_of_state {invitation : Invitation} (h : invitation.state ≠ .opened) (now : Int) :
    invitation.isOpen now = false := by
  simp [Invitation.isOpen, h]

/-- Closing an invitation that was open frees the promise it held. -/
theorem openInvitations_setState {o : Org} {i : Nat} {invitation : Invitation}
    {state : InvitationState} (hi : o.invitations[i]? = some invitation) (hs : state ≠ .opened) :
    (o.setState i invitation state).openInvitations +
      (if invitation.isOpen o.now then 1 else 0) = o.openInvitations := by
  obtain ⟨hlt, hget⟩ := List.getElem?_eq_some_iff.mp hi
  have hclosed : ({ invitation with state := state } : Invitation).isOpen o.now = false :=
    not_isOpen_of_state hs o.now
  show (o.invitations.set i { invitation with state := state }).countP (·.isOpen o.now) + _ = _
  rw [List.countP_set hlt, hget, hclosed]
  by_cases hopen : invitation.isOpen o.now = true
  · have hpos : 0 < o.openInvitations :=
      List.countP_pos_iff.mpr ⟨invitation, List.mem_of_getElem? hi, hopen⟩
    rw [if_pos hopen]
    show o.openInvitations - 1 + 0 + 1 = o.openInvitations
    omega
  · rw [if_neg hopen]
    rfl

/-- Time opens no invitation. -/
theorem openInvitations_wait (o : Org) (seconds : Nat) :
    ({ o with now := o.now + seconds } : Org).openInvitations ≤ o.openInvitations := by
  refine List.countP_mono_left fun invitation _ hopen => ?_
  simp only [Invitation.isOpen, Bool.and_eq_true, decide_eq_true_eq] at hopen ⊢
  exact ⟨hopen.1, by omega⟩

theorem drop_length_le (o : Org) (id : MemberId) :
    (o.drop id).members.length ≤ o.members.length :=
  List.length_filter_le _ _

/-! ## Operations are moves -/

theorem join_pool {o o' : Org} {id : MemberId} {role : Role} (h : o.join id role = .ok o') :
    o'.pool = { o.pool with inUse := o.pool.inUse + 1 } := by
  obtain ⟨_, hmembers, hinvitations, hpurchased, hnow⟩ := join_eq_ok_iff.mp h
  simp only [pool, openInvitations, hmembers, hinvitations, hpurchased, hnow, List.length_append,
    List.length_singleton]

/-- Accepting turns a promise into a use. -/
theorem accept_pool {o o' : Org} {i : Nat} {email : String} {joiner : MemberId}
    (h : o.accept i email joiner = .ok o') :
    ∃ promised, o.pool = ⟨o.pool.capacity, o.pool.inUse, promised + 1⟩ ∧
      o'.pool = ⟨o.pool.capacity, o.pool.inUse + 1, promised⟩ := by
  obtain ⟨invitation, role, hi, hok, hjoin⟩ := accept_eq_ok_iff.mp h
  have hopen := (acceptInvitation_eq_ok_iff.mp hok).1
  have haccepted : InvitationState.accepted ≠ .opened := by decide
  have hcount := openInvitations_setState hi haccepted
  rw [if_pos hopen] at hcount
  refine ⟨(o.setState i invitation .accepted).openInvitations, ?_, ?_⟩
  · rw [hcount]
    rfl
  · rw [join_pool hjoin]
    rfl

theorem setState_move {o : Org} {i : Nat} {invitation : Invitation} {state : InvitationState}
    (hi : o.invitations[i]? = some invitation) (hs : state ≠ .opened) :
    Pool.Move o.pool (o.setState i invitation state).pool := by
  have hcount := openInvitations_setState hi hs
  exact .release (Nat.le_refl _) (show (o.setState i invitation state).openInvitations ≤
    o.openInvitations by omega)

/-- Every operation that is performed is a move of the pool. -/
theorem apply_move {o o' : Org} {op : Op} (h : o.apply op = .ok o') : Pool.Move o.pool o'.pool := by
  cases op with
  | invite actor granted email policy expiresAt =>
    obtain ⟨normalized, hok, rfl⟩ := apply_invite h
    obtain ⟨_, _, _, _, _, hroom⟩ := authorizeInvitation_eq_ok_iff.mp hok
    have hcount := openInvitations_invite o ⟨normalized, granted, .opened, expiresAt⟩
    -- An invitation that is already past its expiry promises nothing.
    by_cases hopen : (⟨normalized, granted, .opened, expiresAt⟩ : Invitation).isOpen o.now = true
    · rw [if_pos hopen] at hcount
      have hmove := Pool.Move.promise ((hasRoom_iff o).mp hroom)
      rwa [show o.pool.promised + 1 = _ from hcount.symm] at hmove
    · rw [if_neg hopen] at hcount
      exact .release (Nat.le_refl _) (Nat.le_of_eq hcount)
  | accept i email joiner =>
    obtain ⟨promised, hbefore, hafter⟩ := accept_pool h
    rw [hbefore, hafter]
    exact .redeem
  | domainJoin email policy joiner =>
    obtain ⟨role, hok, hjoin⟩ := apply_domainJoin h
    have hroom := (authorizeDomainJoin_eq_ok_iff.mp hok).2.1
    rw [join_pool hjoin]
    exact .enter ((hasRoom_iff o).mp hroom)
  | changeRole actor target next =>
    obtain ⟨_, _, _, _, rfl⟩ := changeRole_ok h
    exact .release (Nat.le_of_eq (List.length_map _)) (Nat.le_refl _)
  | remove actor target =>
    obtain ⟨_, _, _, _, rfl⟩ := remove_ok h
    exact .release (drop_length_le o target) (Nat.le_refl _)
  | revoke i =>
    obtain ⟨invitation, hi, rfl⟩ := close_ok h
    exact setState_move hi (by decide)
  | expire i =>
    obtain ⟨invitation, hi, rfl⟩ := close_ok h
    exact setState_move hi (by decide)
  | setPurchased total =>
    cases h
    exact .resize _
  | wait seconds =>
    cases h
    exact .release (Nat.le_refl _) (openInvitations_wait o seconds)

/-! ## Runs with a seat count that does not fall -/

/-- The members and the open invitations have seats. -/
def WithinSeats (o : Org) : Prop := o.members.length + o.openInvitations ≤ o.purchased.toNat

def NeverShrinks (h : List Step) : Prop := ∀ x ∈ h, x.before.purchased ≤ x.after.purchased

theorem step_withinSeats {o o' : Org} {op : Op} {r : Except Refusal Unit} (h : o.WithinSeats)
    (hstep : o.step op = some (o', r)) (hgrow : o.purchased ≤ o'.purchased) : o'.WithinSeats := by
  rcases step_cases hstep with ⟨_, hok⟩ | ⟨_, _, heq⟩
  · exact (apply_move hok).fits h (Or.inl (UInt32.le_iff_toNat_le.mp hgrow))
  · rw [heq]
    exact h

/-- As long as no seat is given up, every state of a run has a seat for each
member and each open invitation. -/
theorem never_oversold (o : Org) (ops : List Op) (h : o.WithinSeats)
    (hgrow : NeverShrinks (history o ops)) :
    (∀ x ∈ history o ops, x.after.WithinSeats) ∧ (after o ops).WithinSeats :=
  state_invariant WithinSeats (fun x => x.before.purchased ≤ x.after.purchased)
    (fun _ _ _ _ hs hstep hle => step_withinSeats hs hstep hle) h hgrow

instance (o : Org) : Decidable o.WithinSeats := inferInstanceAs (Decidable (_ ≤ _))

instance (h : List Step) : Decidable (NeverShrinks h) :=
  inferInstanceAs (Decidable (∀ x ∈ h, x.before.purchased ≤ x.after.purchased))

theorem never_oversold_growing :
    let ops : List Op :=
      [.invite .owner .viewer "ann@acme.test" {} 10, .invite .owner .admin "bob@acme.test" {} 10,
        .setPurchased 3, .accept 0 "Ann@acme.test" 1, .wait 20,
        .domainJoin "cid@acme.test" ⟨["acme.test"], true, false, .viewer⟩ 2]
    ((founded 2).after ops).WithinSeats ∧ ((founded 2).after ops).members.length = 3 :=
  ⟨(never_oversold (founded 2) _ (by decide) (by decide)).2, by decide⟩

/-! ## Runs in which seats are given up -/

def isAdmission : Op → Bool
  | .accept _ _ _ => true
  | .domainJoin _ _ _ => true
  | _ => false

/-- Whoever is let in has a seat. -/
def NeverOverfilled (h : List Step) : Prop :=
  ∀ x ∈ h, isAdmission x.event = true → x.output = .ok () →
    x.after.members.length ≤ x.after.purchased.toNat

instance (h : List Step) : Decidable (NeverOverfilled h) :=
  inferInstanceAs (Decidable (∀ x ∈ h, isAdmission x.event = true → x.output = .ok () →
    x.after.members.length ≤ x.after.purchased.toNat))

/-- The `i`-th invitation is open and addressed to `email`, and `joiner` is not
a member yet. -/
def Acceptable (o : Org) (i : Nat) (email : String) (joiner : MemberId) : Prop :=
  ∃ invitation, o.invitations[i]? = some invitation ∧ invitation.isOpen o.now = true ∧
    (∃ domain, parseEmail email = .ok (.ofList (normalize invitation.email), domain)) ∧
      joiner ∉ o.ids

/-- The seat check of `acceptInvitation` refuses nothing: the ledger counts the
invitation itself as reserved. -/
theorem accept_performed_iff (o : Org) (i : Nat) (email : String) (joiner : MemberId) :
    (∃ o', o.accept i email joiner = .ok o') ↔ o.Acceptable i email joiner := by
  constructor
  · intro ⟨o', h⟩
    obtain ⟨invitation, role, hi, hok, hjoin⟩ := accept_eq_ok_iff.mp h
    obtain ⟨hopen, haddress, _, _⟩ := acceptInvitation_eq_ok_iff.mp hok
    exact ⟨invitation, hi, hopen, haddress, (join_eq_ok_iff.mp hjoin).1⟩
  · intro ⟨invitation, hi, hopen, haddress, hfresh⟩
    have hpos : 0 < o.openInvitations :=
      List.countP_pos_iff.mpr ⟨invitation, List.mem_of_getElem? hi, hopen⟩
    have hreserved : o.seats.reserved ≠ 0 := by
      intro hzero
      have hcount : (count32 o.openInvitations).toNat = 0 := by
        rw [show count32 o.openInvitations = 0 from hzero]
        rfl
      rw [count32_toNat] at hcount
      omega
    have hok : acceptInvitation invitation email o.seats o.now = .ok invitation.role :=
      acceptInvitation_eq_ok_iff.mpr ⟨hopen, haddress, fun hfull => hreserved hfull.2, rfl⟩
    have hids : joiner ∉ (o.setState i invitation .accepted).ids := hfresh
    exact ⟨_, accept_eq_ok_iff.mpr ⟨invitation, _, hi, hok, dif_neg hids⟩⟩

/-- Whoever joins through a verified domain has a seat. -/
theorem domainJoin_seated {o o' : Org} {email : String} {policy : JoinPolicy} {joiner : MemberId}
    (h : o.apply (.domainJoin email policy joiner) = .ok o') :
    o'.members.length ≤ o'.purchased.toNat := by
  obtain ⟨role, hok, hjoin⟩ := apply_domainJoin h
  have hroom := (hasRoom_iff o).mp (authorizeDomainJoin_eq_ok_iff.mp hok).2.1
  show o'.pool.inUse ≤ o'.pool.capacity
  rw [join_pool hjoin]
  unfold Pool.HasRoom at hroom
  simp only
  omega

/-- Someone let in by an invitation has a seat exactly when one was free. -/
theorem accept_seated_iff {o o' : Org} {i : Nat} {email : String} {joiner : MemberId}
    (h : o.accept i email joiner = .ok o') :
    o'.members.length ≤ o'.purchased.toNat ↔ o.members.length < o.purchased.toNat := by
  obtain ⟨promised, _, hafter⟩ := accept_pool h
  have huse : o'.members.length = o.members.length + 1 := congrArg Pool.inUse hafter
  have hcap : o'.purchased.toNat = o.purchased.toNat := congrArg Pool.capacity hafter
  rw [huse, hcap]
  exact Nat.lt_iff_add_one_le.symm

/-- The only seat left is given up while an invitation is out, and the
invitation is accepted all the same. -/
theorem overfilled_after_reduction :
    ¬ ∀ (o : Org) (ops : List Op), NeverOverfilled (history o ops) := by
  intro h
  have hrun := h (founded 2) [.invite .owner .viewer "ann@acme.test" {} 10, .setPurchased 1,
    .accept 0 "ann@acme.test" 1]
  revert hrun
  decide

/-- A run lets nobody in without a seat exactly when each invitation that is
accepted finds a seat free. -/
theorem neverOverfilled_iff (o : Org) (ops : List Op) :
    NeverOverfilled (history o ops) ↔
      ∀ x ∈ history o ops, ∀ i email joiner, x.event = .accept i email joiner →
        x.before.Acceptable i email joiner →
          x.before.members.length < x.before.purchased.toNat := by
  constructor
  · intro h x hx i email joiner hevent hacceptable
    obtain ⟨o', hok⟩ := (accept_performed_iff _ _ _ _).mpr hacceptable
    have hap : x.before.apply x.event = .ok o' := by
      rw [hevent]
      exact hok
    have hstep : x.before.step x.event = some (o', .ok ()) := by
      unfold step
      rw [hap]
    rw [step_of_mem_trace hx, Option.some.injEq, Prod.mk.injEq] at hstep
    have hseated := h x hx (by rw [hevent]; rfl) hstep.2
    rw [hstep.1] at hseated
    exact (accept_seated_iff hok).mp hseated
  · intro h x hx hadmission hout
    rcases step_cases (step_of_mem_trace hx) with ⟨_, hok⟩ | ⟨e, he, _⟩
    · cases hevent : x.event with
      | accept i email joiner =>
        rw [hevent] at hok
        exact (accept_seated_iff hok).mpr (h x hx i email joiner hevent
          ((accept_performed_iff _ _ _ _).mp ⟨_, hok⟩))
      | domainJoin email policy joiner =>
        rw [hevent] at hok
        exact domainJoin_seated hok
      | _ =>
        rw [hevent] at hadmission
        cases hadmission
    · rw [hout] at he
      cases he

end Org
end Tenancy
end IndieWorker
