import IndieWorker.Lib.Conservation
import IndieWorker.Lib.Overflow

/-!
# Flow control

`FlowControl` of `src/runtime/session.rs`: the server sends only what the client
granted, and the client banks no more than a maximum.
-/

namespace IndieWorker
namespace Session

open Run

/-- Credit for one stream. -/
structure FlowControl where
  credit : UInt32
  maxCredit : UInt32
  bound : credit.toNat ≤ maxCredit.toNat

namespace FlowControl

def new (initial maxCredit : UInt32) : FlowControl where
  credit := if initial > maxCredit then maxCredit else initial
  maxCredit := maxCredit
  bound := by
    by_cases h : initial > maxCredit
    · rw [if_pos h]
    · rw [if_neg h]
      exact UInt32.le_iff_toNat_le.mp (UInt32.not_lt.mp h)

def available (f : FlowControl) : UInt32 := f.credit

def maySend (f : FlowControl) : Bool := f.credit > 0

theorem toNat_pos {x : UInt32} (h : x ≠ 0) : 0 < x.toNat := by
  have hne := UInt32.toNat_inj.ne.mpr h
  rw [UInt32.toNat_zero] at hne
  omega

theorem toNat_pred {x : UInt32} (h : x ≠ 0) : (x - 1).toNat = x.toNat - 1 := by
  have hpos := toNat_pos h
  have hle : 1 ≤ x := by
    rw [UInt32.le_iff_toNat_le, UInt32.toNat_one]
    omega
  rw [UInt32.toNat_sub_of_le x 1 hle, UInt32.toNat_one]

/-- Consume one credit.  Answers whether there was one. -/
def consume (f : FlowControl) : FlowControl × Bool :=
  if h : f.credit = 0 then (f, false)
  else
    have hbound : (f.credit - 1).toNat ≤ f.maxCredit.toNat := by
      have := f.bound
      rw [toNat_pred h]
      omega
    ({ f with credit := f.credit - 1, bound := hbound }, true)

/-- Grant more, up to the maximum.  Answers how much was added. -/
def grant (b : Build) (f : FlowControl) (additional : UInt32) : Option (FlowControl × UInt32) :=
  let credit := min (saturatingAdd32 f.credit additional) f.maxCredit
  have hbound : credit.toNat ≤ f.maxCredit.toNat := by
    rw [min32_toNat]
    omega
  (b.sub32 credit f.credit).map fun added => ({ f with credit := credit, bound := hbound }, added)

/-! ## One call -/

inductive Call where
  | consume
  | grant (additional : UInt32)
  deriving DecidableEq, Repr

inductive Answer where
  | consumed (sent : Bool)
  | granted (added : UInt32)
  deriving DecidableEq, Repr

def call (b : Build) (f : FlowControl) : Call → Option (FlowControl × Answer)
  | .consume => some (f.consume.1, .consumed f.consume.2)
  | .grant additional => (f.grant b additional).map fun p => (p.1, .granted p.2)

theorem consume_cases (f : FlowControl) :
    (f.credit = 0 ∧ f.consume = (f, false)) ∨
    (f.consume.2 = true ∧ f.consume.1.maxCredit = f.maxCredit ∧
      f.consume.1.credit.toNat + 1 = f.credit.toNat) := by
  unfold consume
  by_cases h : f.credit = 0
  · rw [dif_pos h]
    exact Or.inl ⟨h, rfl⟩
  · rw [dif_neg h]
    refine Or.inr ⟨rfl, rfl, ?_⟩
    have hpos := toNat_pos h
    show (f.credit - 1).toNat + 1 = f.credit.toNat
    rw [toNat_pred h]
    omega

/-- `may_send` tells whether there is a credit to consume. -/
theorem consume_eq_maySend (f : FlowControl) : f.consume.2 = f.maySend := by
  unfold consume maySend
  by_cases h : f.credit = 0
  · rw [dif_pos h, h]
    rfl
  · rw [dif_neg h]
    have hpos : f.credit > 0 := by
      rw [gt_iff_lt, UInt32.lt_iff_toNat_lt, UInt32.toNat_zero]
      exact toNat_pos h
    exact (decide_eq_true hpos).symm

/-- A grant returns in either build, adds what it answers and no more than was
asked, and less only when the bank is full. -/
theorem grant_spec (b : Build) (f : FlowControl) (additional : UInt32) :
    ∃ f' added, f.grant b additional = some (f', added) ∧ f'.maxCredit = f.maxCredit ∧
      f'.credit.toNat = f.credit.toNat + added.toNat ∧ added.toNat ≤ additional.toNat ∧
        (added.toNat < additional.toNat → f'.credit = f.maxCredit) := by
  have hbound := f.bound
  have hmax := f.maxCredit.toNat_lt
  have hcredit : (min (saturatingAdd32 f.credit additional) f.maxCredit).toNat =
      min (min (f.credit.toNat + additional.toNat) (2 ^ 32 - 1)) f.maxCredit.toNat := by
    rw [min32_toNat, saturatingAdd32_toNat]
  have hle : f.credit ≤ min (saturatingAdd32 f.credit additional) f.maxCredit := by
    rw [UInt32.le_iff_toNat_le, hcredit]
    omega
  have hadded := UInt32.toNat_sub_of_le _ _ hle
  rw [hcredit] at hadded
  unfold grant
  dsimp only
  rw [Build.sub32_of_le b hle]
  refine ⟨_, _, rfl, rfl, ?_, ?_, fun hless => ?_⟩
  · dsimp only
    rw [hcredit, hadded]
    omega
  · rw [hadded]
    omega
  · rw [hadded] at hless
    dsimp only
    rw [← UInt32.toNat_inj, hcredit]
    omega

/-! ## Runs -/

abbrev Step := Entry FlowControl Call Answer

/-- The events an entry sends. -/
def sentBy (x : Step) : Nat :=
  match x.output with
  | .consumed true => 1
  | _ => 0

/-- The credit an entry adds. -/
def addedBy (x : Step) : Nat :=
  match x.output with
  | .granted added => added.toNat
  | _ => 0

/-- The credit an entry asks for. -/
def askedBy (x : Step) : Nat :=
  match x.event with
  | .grant additional => additional.toNat
  | _ => 0

/-- One call takes out what it sends and puts in what it adds. -/
theorem call_balance {b : Build} {f f' : FlowControl} {e : Call} {o : Answer}
    (h : call b f e = some (f', o)) :
    f'.maxCredit = f.maxCredit ∧
      sentBy ⟨f, e, o, f'⟩ + f'.credit.toNat = f.credit.toNat + addedBy ⟨f, e, o, f'⟩ ∧
        addedBy ⟨f, e, o, f'⟩ ≤ askedBy ⟨f, e, o, f'⟩ := by
  cases e with
  | consume =>
    cases h
    rcases consume_cases f with ⟨_, hnone⟩ | ⟨hsent, hmax, hcredit⟩
    · rw [hnone]
      refine ⟨rfl, ?_, Nat.le_refl 0⟩
      show 0 + f.credit.toNat = f.credit.toNat + 0
      omega
    · refine ⟨hmax, ?_, Nat.le_refl 0⟩
      rw [sentBy, addedBy, hsent]
      dsimp only
      omega
  | grant additional =>
    obtain ⟨f'', added, hgrant, hmax, hcredit, hasked, _⟩ := grant_spec b f additional
    rw [call, hgrant] at h
    cases h
    exact ⟨hmax, by simp only [sentBy, addedBy]; omega, hasked⟩

theorem call_total (b : Build) (f : FlowControl) (e : Call) : (call b f e).isSome := by
  cases e with
  | consume => rfl
  | grant additional =>
    obtain ⟨f', added, hgrant, _⟩ := grant_spec b f additional
    rw [call, hgrant]
    rfl

def history (b : Build) (initial maxCredit : UInt32) (calls : List Call) : List Step :=
  trace (call b) (new initial maxCredit) calls

def after (b : Build) (initial maxCredit : UInt32) (calls : List Call) : FlowControl :=
  final (call b) (new initial maxCredit) calls

/-- The events a stretch of a run sends. -/
def sent (h : List Step) : Nat := total sentBy h

/-- The credit a stretch of a run adds. -/
def added (h : List Step) : Nat := total addedBy h

/-- The credit a stretch of a run asks for. -/
def asked (h : List Step) : Nat := total askedBy h

theorem new_credit (initial maxCredit : UInt32) :
    (new initial maxCredit).credit.toNat = min initial.toNat maxCredit.toNat := by
  show (if initial > maxCredit then maxCredit else initial).toNat = _
  by_cases h : initial > maxCredit
  · rw [if_pos h]
    rw [gt_iff_lt, UInt32.lt_iff_toNat_lt] at h
    omega
  · rw [if_neg h]
    rw [gt_iff_lt, UInt32.lt_iff_toNat_lt] at h
    omega

/-- The balance of a stretch of calls. -/
theorem trace_balance (b : Build) (f : FlowControl) (calls : List Call) :
    sent (trace (call b) f calls) + (final (call b) f calls).credit.toNat =
      f.credit.toNat + added (trace (call b) f calls) :=
  total_balance (fun f : FlowControl => f.credit.toNat) sentBy addedBy
    (fun _ _ _ _ h => (call_balance h).2.1) f calls

/-- A stretch without grants sends what was banked before it, at most. -/
theorem sent_le_of_consumes (b : Build) (f : FlowControl) {calls : List Call}
    (hconsume : ∀ e ∈ calls, e = .consume) :
    sent (trace (call b) f calls) ≤ f.credit.toNat := by
  have hbalance := trace_balance b f calls
  have hadded : added (trace (call b) f calls) ≤ 0 := by
    have hzero : total (fun _ => 0) (trace (call b) f calls) = 0 := by simp [total]
    have hle : added (trace (call b) f calls) ≤ total (fun _ => 0) (trace (call b) f calls) := by
      refine total_le_total fun x hx => ?_
      have hevent : x.event = .consume := by
        refine hconsume _ ?_
        rw [← map_event_trace (call_total b) f calls]
        exact List.mem_map_of_mem hx
      have hbal := (call_balance (step_of_mem_trace hx)).2.2
      rw [askedBy, hevent] at hbal
      exact hbal
    rw [hzero] at hle
    exact hle
  omega

/-- The maximum of a run is the one it started with, at every entry. -/
theorem maxCredit_history (b : Build) (initial maxCredit : UInt32) (calls : List Call) :
    (∀ x ∈ history b initial maxCredit calls,
      x.before.maxCredit = maxCredit ∧ x.after.maxCredit = maxCredit) ∧
        (after b initial maxCredit calls).maxCredit = maxCredit := by
  refine history_invariant_start (fun (h : List Step) (f : FlowControl) => (∀ x ∈ h,
    x.before.maxCredit = maxCredit ∧ x.after.maxCredit = maxCredit) ∧ f.maxCredit = maxCredit)
    ⟨nofun, rfl⟩ ?_ calls
  intro h f e f' o ⟨hall, hf⟩ hcall
  have hf' : f'.maxCredit = maxCredit := (call_balance hcall).1.trans hf
  refine ⟨fun x hx => ?_, hf'⟩
  rcases List.mem_append.mp hx with hx | hx
  · exact hall x hx
  · rw [List.mem_singleton.mp hx]
    exact ⟨hf, hf'⟩

/-- Credit is neither created nor lost: every call returns, the bank stays within
its maximum, what was sent and what is left is what there was and what was added, a
grant adds what was asked or fills the bank, and no stretch without grants sends
more than the maximum. -/
theorem credit_conserved (b : Build) (initial maxCredit : UInt32) (calls : List Call) :
    (history b initial maxCredit calls).map Entry.event = calls ∧
    (∀ x ∈ history b initial maxCredit calls, x.before.available.toNat ≤ maxCredit.toNat ∧
      x.after.available.toNat ≤ maxCredit.toNat) ∧
    sent (history b initial maxCredit calls) +
        (after b initial maxCredit calls).available.toNat =
      min initial.toNat maxCredit.toNat + added (history b initial maxCredit calls) ∧
    (∀ x ∈ history b initial maxCredit calls, ∀ additional n, x.event = .grant additional →
      x.output = .granted n → n ≤ additional ∧
        (n < additional → x.after.available = maxCredit)) ∧
    sent (history b initial maxCredit calls) ≤
      min initial.toNat maxCredit.toNat + asked (history b initial maxCredit calls) ∧
    (∀ consumes : List Call, (∀ e ∈ consumes, e = .consume) →
      sent (trace (call b) (after b initial maxCredit calls) consumes) ≤ maxCredit.toNat) := by
  obtain ⟨hmax, hmaxAfter⟩ := maxCredit_history b initial maxCredit calls
  have hbalance := trace_balance b (new initial maxCredit) calls
  rw [new_credit] at hbalance
  have hasked : added (history b initial maxCredit calls) ≤
      asked (history b initial maxCredit calls) :=
    total_le_total fun x hx => (call_balance (step_of_mem_trace hx)).2.2
  refine ⟨map_event_trace (call_total b) _ calls, fun x hx => ?_, hbalance,
    fun x hx additional n hevent houtput => ?_, ?_, fun consumes hconsumes => ?_⟩
  · have hbefore := x.before.bound
    have hafter := x.after.bound
    rw [(hmax x hx).1] at hbefore
    rw [(hmax x hx).2] at hafter
    exact ⟨hbefore, hafter⟩
  · have hstep := step_of_mem_trace hx
    obtain ⟨f', added, hgrant, _, _, hle, hfull⟩ := grant_spec b x.before additional
    rw [hevent, houtput, call, hgrant] at hstep
    cases hstep
    rw [UInt32.le_iff_toNat_le, UInt32.lt_iff_toNat_lt]
    refine ⟨hle, fun hless => ?_⟩
    show x.after.credit = maxCredit
    rw [← (hmax x hx).1]
    exact hfull hless
  · have hbalance' : sent (history b initial maxCredit calls) +
        (after b initial maxCredit calls).credit.toNat =
      min initial.toNat maxCredit.toNat + added (history b initial maxCredit calls) := hbalance
    omega
  · have hsent := sent_le_of_consumes b (after b initial maxCredit calls) hconsumes
    have hbound := (after b initial maxCredit calls).bound
    rw [hmaxAfter] at hbound
    omega

end FlowControl
end Session
end IndieWorker
