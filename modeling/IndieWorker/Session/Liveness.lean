import IndieWorker.Session.Heartbeat

/-!
# When a peer is given up

The verdicts of a heartbeat since it last heard from the peer are a fixed number of
pings and then nothing but `Dead`, however the calls are interleaved and whatever
the clock says.
-/

namespace IndieWorker
namespace Session
namespace Heartbeat

open Run

/-- The pings a silent peer gets. -/
def limit (maxMissed : UInt32) : Nat := max 1 maxMissed.toNat

/-- What a heartbeat knows of the time since it heard from the peer. -/
structure Watched (interval : UInt64) (maxMissed : UInt32) (created : UInt64) (h : List Step)
    (hb : Heartbeat) : Prop where
  sameInterval : hb.intervalSeconds = interval
  sameLimit : hb.maxMissed = maxMissed
  outstanding : hb.outstanding = none ↔ (verdicts h).length = 0
  missed : hb.missed.toNat = min ((verdicts h).length - 1) (2 ^ 32 - 1)
  seen : (lastRefresh created h).toNat +
    min (verdicts h).length (limit maxMissed) * interval.toNat ≤ hb.lastSeen.toNat
  pings : ∀ v ∈ (verdicts h).take (limit maxMissed), v.isPing
  deads : ∀ v ∈ (verdicts h).drop (limit maxMissed), v = .dead
  since : ∀ x ∈ sinceRefresh h, x.output = .polled .dead →
    hb.lastSeen.toNat + interval.toNat ≤ x.event.now.toNat

variable {interval : UInt64} {maxMissed : UInt32} {created : UInt64} {h : List Step}
  {hb hb' : Heartbeat} {x : Step}

theorem watched_new : Watched interval maxMissed created [] (new interval maxMissed created) where
  sameInterval := rfl
  sameLimit := rfl
  outstanding := iff_of_true rfl rfl
  missed := rfl
  seen := by
    show created.toNat + min 0 (limit maxMissed) * interval.toNat ≤ created.toNat
    rw [Nat.zero_min, Nat.zero_mul]
    exact Nat.le_refl _
  pings := by simp [verdicts, sinceRefresh]
  deads := by simp [verdicts, sinceRefresh]
  since := by simp [sinceRefresh]

/-- A sign of life starts the count again. -/
theorem Watched.refresh (hw : Watched interval maxMissed created h hb)
    (hx : x.output.refreshes = true) :
    Watched interval maxMissed created (h ++ [x]) (hb.sawTraffic x.event.now) where
  sameInterval := hw.sameInterval
  sameLimit := hw.sameLimit
  outstanding := by
    rw [verdicts_of_refreshes hx]
    exact iff_of_true rfl rfl
  missed := by
    rw [verdicts_of_refreshes hx]
    rfl
  seen := by
    rw [verdicts_of_refreshes hx, lastRefresh_concat, if_pos hx, List.length_nil, Nat.zero_min,
      Nat.zero_mul]
    exact Nat.le_refl _
  pings := by
    simp [verdicts_of_refreshes hx]
  deads := by
    simp [verdicts_of_refreshes hx]
  since := by simp [sinceRefresh_of_refreshes hx]

/-- An idle poll and a refused pong change nothing. -/
theorem Watched.quiet (hw : Watched interval maxMissed created h hb)
    (hx : x.output.refreshes = false) (hv : x.output.verdict = none) :
    Watched interval maxMissed created (h ++ [x]) hb := by
  have hverdicts : verdicts (h ++ [x]) = verdicts h := by
    rw [verdicts_of_quiet hx, hv]
    exact List.append_nil _
  refine ⟨hw.sameInterval, hw.sameLimit, ?_, ?_, ?_, ?_, ?_, fun y hy hdead => ?_⟩
  · rw [hverdicts]
    exact hw.outstanding
  · rw [hverdicts]
    exact hw.missed
  · rw [hverdicts, lastRefresh_of_quiet hx]
    exact hw.seen
  · rw [hverdicts]
    exact hw.pings
  · rw [hverdicts]
    exact hw.deads
  · rw [sinceRefresh_of_quiet hx] at hy
    rcases List.mem_append.mp hy with hy | hy
    · exact hw.since y hy hdead
    · rw [List.mem_singleton] at hy
      subst hy
      rw [hdead] at hv
      cases hv

/-- A dead entry is a verdict beyond the pings. -/
theorem Watched.limit_lt (hw : Watched interval maxMissed created h hb)
    (hx : x ∈ sinceRefresh h) (hdead : x.output = .polled .dead) :
    limit maxMissed < (verdicts h).length := by
  have hmem : Liveness.dead ∈ verdicts h :=
    List.mem_filterMap.mpr ⟨x, hx, by rw [hdead]; rfl⟩
  by_contra hle
  rw [← List.take_of_length_le (Nat.not_lt.mp hle)] at hmem
  cases hw.pings _ hmem

/-- A ping is one of the first verdicts. -/
theorem Watched.sendPing (hw : Watched interval maxMissed created h hb) {nonce now : UInt64}
    {missed : UInt32} (hcount : (verdicts h).length < limit maxMissed)
    (hmissed : missed.toNat = min (verdicts h).length (2 ^ 32 - 1))
    (hnow : hb.lastSeen.toNat + interval.toNat ≤ now.toNat)
    (hx : x.output = .polled (.sendPing nonce)) :
    Watched interval maxMissed created (h ++ [x]) (({ hb with missed }).ping now).1 := by
  have hverdict : x.output.verdict = some (.sendPing nonce) := by
    rw [hx]
    rfl
  have hquiet := quiet_of_verdict hverdict
  have hlength := length_verdicts_of_verdict hverdict h
  have hseen := hw.seen
  refine ⟨hw.sameInterval, hw.sameLimit, ?_, ?_, ?_, fun v hv => ?_, fun v hv => ?_,
    fun y hy hdead => ?_⟩
  · rw [hlength]
    exact iff_of_false nofun (Nat.succ_ne_zero _)
  · rw [hlength]
    exact hmissed
  · rw [hlength, lastRefresh_of_quiet hquiet, Nat.min_eq_left hcount, Nat.succ_mul]
    rw [Nat.min_eq_left (Nat.le_of_lt hcount)] at hseen
    show _ ≤ now.toNat
    omega
  · rw [verdicts_of_verdict hverdict,
      List.take_of_length_le (by rw [List.length_append]; exact hcount)] at hv
    rcases List.mem_append.mp hv with hv | hv
    · rw [← List.take_of_length_le (Nat.le_of_lt hcount)] at hv
      exact hw.pings v hv
    · rw [List.mem_singleton.mp hv]
      rfl
  · rw [List.drop_of_length_le (by rw [hlength]; exact hcount)] at hv
    cases hv
  · rw [sinceRefresh_of_quiet hquiet] at hy
    rcases List.mem_append.mp hy with hy | hy
    · have := hw.limit_lt hy hdead
      omega
    · rw [List.mem_singleton.mp hy, hx] at hdead
      cases hdead

/-- A peer is given up after all the pings, and stays so. -/
theorem Watched.giveUp (hw : Watched interval maxMissed created h hb) {missed : UInt32}
    (hcount : limit maxMissed ≤ (verdicts h).length)
    (hmissed : missed.toNat = min (verdicts h).length (2 ^ 32 - 1))
    (hnow : hb.lastSeen.toNat + interval.toNat ≤ x.event.now.toNat)
    (hx : x.output = .polled .dead) :
    Watched interval maxMissed created (h ++ [x]) { hb with missed } := by
  have hverdict : x.output.verdict = some .dead := by
    rw [hx]
    rfl
  have hquiet := quiet_of_verdict hverdict
  have hlength := length_verdicts_of_verdict hverdict h
  have hpositive : 0 < limit maxMissed := Nat.le_max_left 1 _
  have hseen := hw.seen
  refine ⟨hw.sameInterval, hw.sameLimit, ?_, ?_, ?_, fun v hv => ?_, fun v hv => ?_,
    fun y hy hdead => ?_⟩
  · rw [hlength]
    refine iff_of_false (fun hnone => ?_) (Nat.succ_ne_zero _)
    have := hw.outstanding.mp hnone
    omega
  · rw [hlength]
    exact hmissed
  · rw [hlength, lastRefresh_of_quiet hquiet, Nat.min_eq_right (by omega)]
    rw [Nat.min_eq_right hcount] at hseen
    exact hseen
  · rw [verdicts_of_verdict hverdict, List.take_append_of_le_length hcount] at hv
    exact hw.pings v hv
  · rw [verdicts_of_verdict hverdict, List.drop_append_of_le_length hcount] at hv
    rcases List.mem_append.mp hv with hv | hv
    · exact hw.deads v hv
    · exact List.mem_singleton.mp hv
  · rw [sinceRefresh_of_quiet hquiet] at hy
    rcases List.mem_append.mp hy with hy | hy
    · exact hw.since y hy hdead
    · rw [List.mem_singleton.mp hy]
      exact hnow

/-- The misses are one behind the verdicts, and one more miss catches up. -/
theorem count_miss {n m m' M : Nat} (hm : m = min (n - 1) M) (hn : n ≠ 0)
    (hm' : m' = min (m + 1) M) : m' = min n M := by
  omega

theorem limit_le_of_le {n m M : Nat} (hm : m = min n M) (hn : n ≠ 0)
    (hle : maxMissed.toNat ≤ m) : limit maxMissed ≤ n := by
  have hlimit : limit maxMissed = max 1 maxMissed.toNat := rfl
  omega

theorem lt_limit_of_lt {n m M : Nat} (hm : m = min n M) (hM : maxMissed.toNat ≤ M)
    (hless : m < maxMissed.toNat) : n < limit maxMissed := by
  have hlimit : limit maxMissed = max 1 maxMissed.toNat := rfl
  omega

theorem Watched.poll (hinterval : 1 ≤ interval.toNat)
    (hw : Watched interval maxMissed created h hb) (now : UInt64) :
    Watched interval maxMissed created
      (h ++ [⟨hb, .poll now, .polled (hb.poll now).2, (hb.poll now).1⟩]) (hb.poll now).1 := by
  rcases poll_cases hb now with ⟨_, hpoll⟩ | ⟨hlate, hpoll⟩
  · rw [hpoll]
    exact hw.quiet rfl rfl
  · rw [hw.sameInterval] at hlate
    have hnow : hb.lastSeen.toNat + interval.toNat ≤ now.toNat := by omega
    rcases hpoll with ⟨hnone, hpoll⟩ | ⟨hsome, missed, hcount, hpoll⟩
    · have hzero := hw.outstanding.mp hnone
      have hmissed := hw.missed
      rw [hzero] at hmissed
      rw [hpoll]
      refine hw.sendPing (by rw [hzero]; exact Nat.le_max_left 1 _) ?_ hnow rfl
      rw [hzero]
      exact hmissed
    · have hpositive : (verdicts h).length ≠ 0 := by
        intro hzero
        rw [hw.outstanding.mpr hzero] at hsome
        cases hsome
      have hequal := count_miss hw.missed hpositive hcount
      have hmax : maxMissed.toNat ≤ 2 ^ 32 - 1 := Nat.le_pred_of_lt maxMissed.toNat_lt
      rcases hpoll with ⟨hdead, hpoll⟩ | ⟨hless, hpoll⟩
      · rw [hw.sameLimit] at hdead
        rw [hpoll]
        exact hw.giveUp (x := ⟨hb, .poll now, .polled .dead, _⟩)
          (limit_le_of_le hequal hpositive hdead) hequal hnow rfl
      · rw [hw.sameLimit] at hless
        rw [hpoll]
        exact hw.sendPing (lt_limit_of_lt hequal hmax hless) hequal hnow rfl

theorem Watched.call (hinterval : 1 ≤ interval.toNat)
    (hw : Watched interval maxMissed created h hb) {e : Call} {o : Answer}
    (hcall : call hb e = some (hb', o)) :
    Watched interval maxMissed created (h ++ [⟨hb, e, o, hb'⟩]) hb' := by
  cases e with
  | poll now =>
    cases hcall
    exact hw.poll hinterval now
  | sawTraffic now =>
    cases hcall
    exact hw.refresh (x := ⟨hb, .sawTraffic now, .seen, hb.sawTraffic now⟩) rfl
  | sawPong nonce now =>
    cases hcall
    by_cases hpong : hb.outstanding = some nonce
    · have hsaw : hb.sawPong nonce now = (hb.sawTraffic now, true) := if_pos hpong
      rw [hsaw]
      exact hw.refresh (x := ⟨hb, .sawPong nonce now, .pong true, hb.sawTraffic now⟩) rfl
    · have hsaw : hb.sawPong nonce now = (hb, false) := if_neg hpong
      rw [hsaw]
      exact hw.quiet rfl rfl

/-- What holds of every run of calls. -/
theorem watched_history (hinterval : 1 ≤ interval.toNat) (calls : List Call) :
    Watched interval maxMissed created (history interval maxMissed created calls)
      (after interval maxMissed created calls) :=
  history_invariant_start (Watched interval maxMissed created) watched_new
    (fun _ _ _ _ _ hw hcall => hw.call hinterval hcall) calls

/-- A poll is idle exactly until an interval has passed since the peer was last seen. -/
theorem poll_idle_iff (hb : Heartbeat) (hinterval : 1 ≤ hb.intervalSeconds.toNat) (now : UInt64) :
    (hb.poll now).2 = .idle ↔ now.toNat < hb.lastSeen.toNat + hb.intervalSeconds.toNat := by
  rcases poll_cases hb now with ⟨hearly, hpoll⟩ | ⟨hlate, hpoll⟩
  · rw [hpoll]
    exact iff_of_true rfl (by omega)
  · refine iff_of_false (fun hidle => ?_) (by omega)
    rcases hpoll with ⟨_, hpoll⟩ | ⟨_, missed, _, ⟨_, hpoll⟩ | ⟨_, hpoll⟩⟩
    all_goals
      rw [hpoll] at hidle
      cases hidle

/-- Once a peer is given up, a poll asks for nothing else, and gives it up again
unless its clock is behind. -/
theorem Watched.poll_dead (hinterval : 1 ≤ interval.toNat)
    (hw : Watched interval maxMissed created h hb) (hx : x ∈ sinceRefresh h)
    (hdead : x.output = .polled .dead) (now : UInt64) :
    ((hb.poll now).2 = .idle ∨ (hb.poll now).2 = .dead) ∧
      (x.event.now ≤ now → (hb.poll now).2 = .dead) := by
  have hlimit := hw.limit_lt hx hdead
  have hsince := hw.since x hx hdead
  have hdeads := (hw.poll hinterval now).deads
  have hpositive : 0 < limit maxMissed := Nat.le_max_left 1 _
  have hverdict : ∀ v, (hb.poll now).2 = v → v ≠ .idle → v = .dead := by
    intro v hv hidle
    refine hdeads v ?_
    rw [verdicts_of_quiet rfl, List.drop_append_of_le_length (Nat.le_of_lt hlimit), hv]
    refine List.mem_append_right _ ?_
    cases v with
    | idle => exact absurd rfl hidle
    | sendPing nonce => exact List.mem_singleton_self _
    | dead => exact List.mem_singleton_self _
  constructor
  · by_cases hidle : (hb.poll now).2 = .idle
    · exact Or.inl hidle
    · exact Or.inr (hverdict _ rfl hidle)
  · intro hle
    rw [UInt64.le_iff_toNat_le] at hle
    refine hverdict _ rfl fun hidle => ?_
    have hearly := (poll_idle_iff hb (by rwa [hw.sameInterval]) now).mp hidle
    rw [hw.sameInterval] at hearly
    omega

/-- A silent peer gets its pings and is then given up: of the verdicts since it was
last heard, the first ones are pings and all others `Dead`, and no `Dead` comes
before an interval for every ping and one more have passed.  A peer that was given
up stays so until it is heard, and a poll is idle only for the interval after the
peer was last seen. -/
theorem silent_peer_given_up (interval : UInt64) (maxMissed : UInt32) (created : UInt64)
    (hinterval : 1 ≤ interval) (calls : List Call) :
    let h := history interval maxMissed created calls
    (∀ v ∈ (verdicts h).take (limit maxMissed), v.isPing) ∧
    (∀ v ∈ (verdicts h).drop (limit maxMissed), v = .dead) ∧
    (∀ x ∈ sinceRefresh h, x.output = .polled .dead →
      limit maxMissed < (verdicts h).length ∧
        (lastRefresh created h).toNat + (limit maxMissed + 1) * interval.toNat ≤
          x.event.now.toNat) ∧
    (∀ x ∈ sinceRefresh h, x.output = .polled .dead → ∀ now,
      (((after interval maxMissed created calls).poll now).2 = .idle ∨
        ((after interval maxMissed created calls).poll now).2 = .dead) ∧
      (x.event.now ≤ now → ((after interval maxMissed created calls).poll now).2 = .dead)) ∧
    (∀ now, ((after interval maxMissed created calls).poll now).2 = .idle ↔
      now.toNat < (after interval maxMissed created calls).lastSeen.toNat + interval.toNat) := by
  rw [UInt64.le_iff_toNat_le, UInt64.toNat_one] at hinterval
  intro h
  have hw : Watched interval maxMissed created h (after interval maxMissed created calls) :=
    watched_history hinterval calls
  have hidle := poll_idle_iff (after interval maxMissed created calls)
    (by rwa [hw.sameInterval])
  rw [hw.sameInterval] at hidle
  refine ⟨hw.pings, hw.deads, fun x hx hdead => ?_, fun x hx hdead now =>
    hw.poll_dead hinterval hx hdead now, hidle⟩
  have hlimit := hw.limit_lt hx hdead
  have hsince := hw.since x hx hdead
  have hseen := hw.seen
  rw [Nat.min_eq_right (Nat.le_of_lt hlimit)] at hseen
  refine ⟨hlimit, ?_⟩
  rw [Nat.succ_mul]
  omega

/-- A peer that answers the first ping and then no more. -/
theorem silent_peer_given_up_ten :
    verdicts (history 10 3 0 [.poll 10, .sawPong 1 11, .poll 21, .poll 31, .poll 41, .poll 51]) =
        [.sendPing 2, .sendPing 3, .sendPing 4, .dead] ∧
      ((verdicts (history 10 3 0 [.poll 10, .sawPong 1 11, .poll 21, .poll 31, .poll 41,
        .poll 51])).drop 3).all (· = .dead) = true :=
  ⟨by decide, List.all_eq_true.mpr fun v hv =>
    decide_eq_true ((silent_peer_given_up 10 3 0 (by decide) _).2.1 v hv)⟩

end Heartbeat
end Session
end IndieWorker
