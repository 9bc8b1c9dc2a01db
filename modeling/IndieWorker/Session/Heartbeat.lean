import IndieWorker.Lib.Run
import IndieWorker.Lib.Overflow
import Mathlib.Data.List.DropRight

/-!
# Heartbeat

`Heartbeat` of `src/runtime/session.rs`: it asks a silent peer for an answer and
gives it up when too many intervals pass without one.  Clock values are what the
caller passes, in any order.
-/

namespace IndieWorker
namespace Session

open Run

/-- What the heartbeat wants done. -/
inductive Liveness where
  | idle
  | sendPing (nonce : UInt64)
  | dead
  deriving DecidableEq, Repr

def Liveness.isPing : Liveness → Bool
  | .sendPing _ => true
  | _ => false

structure Heartbeat where
  intervalSeconds : UInt64
  maxMissed : UInt32
  lastSeen : UInt64
  outstanding : Option UInt64
  missed : UInt32
  nextNonce : UInt64
  deriving DecidableEq, Repr

namespace Heartbeat

def new (intervalSeconds : UInt64) (maxMissed : UInt32) (now : UInt64) : Heartbeat :=
  ⟨intervalSeconds, maxMissed, now, none, 0, 1⟩

/-- Any frame from the peer proves liveness. -/
def sawTraffic (hb : Heartbeat) (now : UInt64) : Heartbeat :=
  { hb with lastSeen := now, missed := 0, outstanding := none }

/-- A pong counts only for the ping that is outstanding. -/
def sawPong (hb : Heartbeat) (nonce now : UInt64) : Heartbeat × Bool :=
  if hb.outstanding = some nonce then (hb.sawTraffic now, true) else (hb, false)

/-- Ask for an answer with the next nonce. -/
def ping (hb : Heartbeat) (now : UInt64) : Heartbeat × Liveness :=
  ({ hb with nextNonce := hb.nextNonce + 1, outstanding := some hb.nextNonce, lastSeen := now },
    .sendPing hb.nextNonce)

def poll (hb : Heartbeat) (now : UInt64) : Heartbeat × Liveness :=
  if saturatingSub now hb.lastSeen < hb.intervalSeconds then (hb, .idle)
  else if hb.outstanding.isSome then
    let hb := { hb with missed := saturatingAdd32 hb.missed 1 }
    if hb.missed ≥ hb.maxMissed then (hb, .dead) else hb.ping now
  else hb.ping now

/-! ## Runs -/

inductive Call where
  | poll (now : UInt64)
  | sawTraffic (now : UInt64)
  | sawPong (nonce now : UInt64)
  deriving DecidableEq, Repr

/-- The clock value of a call. -/
def Call.now : Call → UInt64
  | .poll now => now
  | .sawTraffic now => now
  | .sawPong _ now => now

inductive Answer where
  | polled (liveness : Liveness)
  | seen
  | pong (accepted : Bool)
  deriving DecidableEq, Repr

/-- The peer has proved that it is there. -/
def Answer.refreshes : Answer → Bool
  | .seen => true
  | .pong accepted => accepted
  | .polled _ => false

/-- What a poll wants done, if anything. -/
def Answer.verdict : Answer → Option Liveness
  | .polled .idle => none
  | .polled liveness => some liveness
  | _ => none

/-- Every call returns. -/
def call (hb : Heartbeat) : Call → Option (Heartbeat × Answer)
  | .poll now => some ((hb.poll now).1, .polled (hb.poll now).2)
  | .sawTraffic now => some (hb.sawTraffic now, .seen)
  | .sawPong nonce now => some ((hb.sawPong nonce now).1, .pong (hb.sawPong nonce now).2)

abbrev Step := Entry Heartbeat Call Answer

def history (intervalSeconds : UInt64) (maxMissed : UInt32) (created : UInt64)
    (calls : List Call) : List Step :=
  trace call (new intervalSeconds maxMissed created) calls

def after (intervalSeconds : UInt64) (maxMissed : UInt32) (created : UInt64)
    (calls : List Call) : Heartbeat :=
  final call (new intervalSeconds maxMissed created) calls

/-- The time of the latest of creation, traffic and an accepted pong. -/
def lastRefresh (created : UInt64) (h : List Step) : UInt64 :=
  h.foldl (fun time x => if x.output.refreshes then x.event.now else time) created

/-- The part of a history after the latest refresh. -/
def sinceRefresh (h : List Step) : List Step := h.rtakeWhile fun x => !x.output.refreshes

/-- The polls since the latest refresh that want something done. -/
def verdicts (h : List Step) : List Liveness := (sinceRefresh h).filterMap (·.output.verdict)

theorem call_total (hb : Heartbeat) (e : Call) : (call hb e).isSome := by
  cases e with
  | poll now => rfl
  | sawTraffic now => rfl
  | sawPong nonce now => rfl

/-! ## What a step adds to a history -/

theorem lastRefresh_concat (created : UInt64) (h : List Step) (x : Step) :
    lastRefresh created (h ++ [x]) =
      if x.output.refreshes then x.event.now else lastRefresh created h := by
  simp [lastRefresh]

theorem sinceRefresh_of_refreshes {x : Step} (hx : x.output.refreshes = true) (h : List Step) :
    sinceRefresh (h ++ [x]) = [] := by
  rw [sinceRefresh, List.rtakeWhile_concat_neg _ _ _ (by simp [hx])]

theorem sinceRefresh_of_quiet {x : Step} (hx : x.output.refreshes = false) (h : List Step) :
    sinceRefresh (h ++ [x]) = sinceRefresh h ++ [x] := by
  rw [sinceRefresh, List.rtakeWhile_concat_pos _ _ _ (by simp [hx])]
  rfl

theorem lastRefresh_of_quiet {x : Step} (hx : x.output.refreshes = false) (created : UInt64)
    (h : List Step) : lastRefresh created (h ++ [x]) = lastRefresh created h := by
  rw [lastRefresh_concat, hx]
  rfl

theorem quiet_of_verdict {o : Answer} {v : Liveness} (h : o.verdict = some v) :
    o.refreshes = false := by
  cases o with
  | polled liveness => rfl
  | seen => cases h
  | pong accepted => cases h

theorem verdicts_of_refreshes {x : Step} (hx : x.output.refreshes = true) (h : List Step) :
    verdicts (h ++ [x]) = [] := by
  rw [verdicts, sinceRefresh_of_refreshes hx]
  rfl

theorem verdicts_of_quiet {x : Step} (hx : x.output.refreshes = false) (h : List Step) :
    verdicts (h ++ [x]) = verdicts h ++ x.output.verdict.toList := by
  rw [verdicts, sinceRefresh_of_quiet hx, List.filterMap_append]
  cases hv : x.output.verdict with
  | none => simp [verdicts, hv]
  | some liveness => simp [verdicts, hv]

theorem verdicts_of_verdict {x : Step} {v : Liveness} (hx : x.output.verdict = some v)
    (h : List Step) : verdicts (h ++ [x]) = verdicts h ++ [v] := by
  rw [verdicts_of_quiet (quiet_of_verdict hx), hx]
  rfl

theorem length_verdicts_of_verdict {x : Step} {v : Liveness} (hx : x.output.verdict = some v)
    (h : List Step) : (verdicts (h ++ [x])).length = (verdicts h).length + 1 := by
  rw [verdicts_of_verdict hx, List.length_append, List.length_singleton]

/-! ## One poll -/

/-- What one poll can do. -/
theorem poll_cases (hb : Heartbeat) (now : UInt64) :
    (now.toNat - hb.lastSeen.toNat < hb.intervalSeconds.toNat ∧ hb.poll now = (hb, .idle)) ∨
    (hb.intervalSeconds.toNat ≤ now.toNat - hb.lastSeen.toNat ∧
      ((hb.outstanding = none ∧ hb.poll now = hb.ping now) ∨
        (hb.outstanding.isSome ∧ ∃ missed : UInt32,
          missed.toNat = min (hb.missed.toNat + 1) (2 ^ 32 - 1) ∧
            ((hb.maxMissed.toNat ≤ missed.toNat ∧ hb.poll now = ({ hb with missed }, .dead)) ∨
              (missed.toNat < hb.maxMissed.toNat ∧
                hb.poll now = ({ hb with missed }).ping now))))) := by
  unfold poll
  by_cases hidle : saturatingSub now hb.lastSeen < hb.intervalSeconds
  · rw [if_pos hidle]
    rw [UInt64.lt_iff_toNat_lt, saturatingSub_toNat] at hidle
    exact Or.inl ⟨hidle, rfl⟩
  · rw [if_neg hidle]
    rw [UInt64.lt_iff_toNat_lt, saturatingSub_toNat] at hidle
    refine Or.inr ⟨by omega, ?_⟩
    cases houtstanding : hb.outstanding with
    | none => exact Or.inl ⟨rfl, if_neg (by simp)⟩
    | some nonce =>
      have hmissed := saturatingAdd32_toNat hb.missed 1
      rw [UInt32.toNat_one] at hmissed
      refine Or.inr ⟨rfl, saturatingAdd32 hb.missed 1, hmissed, ?_⟩
      rw [if_pos (by rfl)]
      by_cases hdead : saturatingAdd32 hb.missed 1 ≥ hb.maxMissed
      · exact Or.inl ⟨UInt32.le_iff_toNat_le.mp hdead, by simp only [if_pos hdead]⟩
      · have hless := mt UInt32.le_iff_toNat_le.mpr hdead
        exact Or.inr ⟨by omega, by simp only [if_neg hdead]⟩

end Heartbeat
end Session
end IndieWorker
