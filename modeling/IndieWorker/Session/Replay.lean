import IndieWorker.Session.Heartbeat

/-!
# Replayed pongs

A pong refreshes a heartbeat only as the answer to its latest ping, and only once.
Nonces repeat after `2 ^ 64` pings, so a run has fewer.
-/

namespace IndieWorker
namespace Session
namespace Heartbeat

open Run

/-- The nonce of the ping an entry sends. -/
def sentNonce (x : Step) : Option UInt64 :=
  match x.output with
  | .polled (.sendPing nonce) => some nonce
  | _ => none

/-- The nonce of the pong an entry accepts. -/
def acceptedNonce (x : Step) : Option UInt64 :=
  match x.event, x.output with
  | .sawPong nonce _, .pong true => some nonce
  | _, _ => none

/-- The nonces of the pings sent, in order. -/
def sentNonces (h : List Step) : List UInt64 := h.filterMap sentNonce

/-- The nonces of the pongs accepted, in order. -/
def acceptedNonces (h : List Step) : List UInt64 := h.filterMap acceptedNonce

/-- The latest ping has this nonce, and nothing was heard since. -/
def Awaits (nonce : UInt64) (h : List Step) : Prop :=
  ∃ front ping back, h = front ++ ping :: back ∧ sentNonce ping = some nonce ∧
    ∀ x ∈ back, sentNonce x = none ∧ x.output.refreshes = false

theorem Awaits.concat {nonce : UInt64} {h : List Step} {x : Step} (ha : Awaits nonce h)
    (hx : sentNonce x = none ∧ x.output.refreshes = false) : Awaits nonce (h ++ [x]) := by
  obtain ⟨front, ping, back, hh, hping, hback⟩ := ha
  refine ⟨front, ping, back ++ [x], by rw [hh]; simp, hping, fun y hy => ?_⟩
  rcases List.mem_append.mp hy with hy | hy
  · exact hback y hy
  · rw [List.mem_singleton.mp hy]
    exact hx

theorem awaits_of_ping {nonce : UInt64} {x : Step} (hx : sentNonce x = some nonce)
    (h : List Step) : Awaits nonce (h ++ [x]) :=
  ⟨h, x, [], rfl, hx, List.forall_mem_nil _⟩

/-- The nonces a run has used.  None of those accepted is as great as the one
outstanding, and none of those sent as great as the next. -/
structure Nonces (h : List Step) (hb : Heartbeat) : Prop where
  next : hb.nextNonce.toNat = ((sentNonces h).length + 1) % 2 ^ 64
  awaits : ∀ nonce, hb.outstanding = some nonce → Awaits nonce h
  outstanding : ∀ nonce, hb.outstanding = some nonce →
    nonce.toNat ≤ (sentNonces h).length ∧ nonce ∉ acceptedNonces h
  accepted : ∀ nonce ∈ acceptedNonces h, nonce.toNat ≤ (sentNonces h).length
  nodup : (acceptedNonces h).Nodup

variable {h : List Step} {hb hb' : Heartbeat} {x : Step}

theorem sentNonces_concat (h : List Step) (x : Step) :
    sentNonces (h ++ [x]) = sentNonces h ++ (sentNonce x).toList := by
  rw [sentNonces, List.filterMap_append]
  cases hx : sentNonce x with
  | none => simp [sentNonces, hx]
  | some nonce => simp [sentNonces, hx]

theorem acceptedNonces_concat (h : List Step) (x : Step) :
    acceptedNonces (h ++ [x]) = acceptedNonces h ++ (acceptedNonce x).toList := by
  rw [acceptedNonces, List.filterMap_append]
  cases hx : acceptedNonce x with
  | none => simp [acceptedNonces, hx]
  | some nonce => simp [acceptedNonces, hx]

theorem sentNonces_of_none (hx : sentNonce x = none) : sentNonces (h ++ [x]) = sentNonces h := by
  rw [sentNonces_concat, hx]
  exact List.append_nil _

theorem acceptedNonces_of_none (hx : acceptedNonce x = none) :
    acceptedNonces (h ++ [x]) = acceptedNonces h := by
  rw [acceptedNonces_concat, hx]
  exact List.append_nil _

/-- A call that neither sends nor accepts, and after which the same ping or none
is outstanding. -/
theorem Nonces.keep (hn : Nonces h hb) (hsent : sentNonce x = none)
    (haccepted : acceptedNonce x = none) (hnext : hb'.nextNonce = hb.nextNonce)
    (houtstanding : hb'.outstanding = none ∨
      (x.output.refreshes = false ∧ hb'.outstanding = hb.outstanding)) :
    Nonces (h ++ [x]) hb' := by
  have hs : sentNonces (h ++ [x]) = sentNonces h := sentNonces_of_none hsent
  have ha : acceptedNonces (h ++ [x]) = acceptedNonces h := acceptedNonces_of_none haccepted
  refine ⟨by rw [hnext, hs]; exact hn.next, fun nonce hnonce => ?_, fun nonce hnonce => ?_,
    by rw [ha, hs]; exact hn.accepted, by rw [ha]; exact hn.nodup⟩
  · rcases houtstanding with hnone | ⟨hquiet, hsame⟩
    · rw [hnone] at hnonce
      cases hnonce
    · rw [hsame] at hnonce
      exact (hn.awaits nonce hnonce).concat ⟨hsent, hquiet⟩
  · rcases houtstanding with hnone | ⟨_, hsame⟩
    · rw [hnone] at hnonce
      cases hnonce
    · rw [hsame] at hnonce
      rw [hs, ha]
      exact hn.outstanding nonce hnonce

/-- A ping takes the next nonce, which is greater than all before it. -/
theorem Nonces.ping (hn : Nonces h hb) (now : UInt64) (missed : UInt32)
    (hfew : (sentNonces h).length + 1 < 2 ^ 64)
    (hsent : sentNonce x = some hb.nextNonce) (haccepted : acceptedNonce x = none) :
    Nonces (h ++ [x]) (({ hb with missed }).ping now).1 := by
  have hnext := hn.next
  rw [Nat.mod_eq_of_lt hfew] at hnext
  have hs : (sentNonces (h ++ [x])).length = (sentNonces h).length + 1 := by
    rw [sentNonces_concat, hsent, List.length_append]
    rfl
  have ha : acceptedNonces (h ++ [x]) = acceptedNonces h := acceptedNonces_of_none haccepted
  refine ⟨?_, fun nonce hnonce => ?_, fun nonce hnonce => ?_, fun nonce hnonce => ?_,
    by rw [ha]; exact hn.nodup⟩
  · show (hb.nextNonce + 1).toNat = _
    rw [UInt64.toNat_add, hnext, hs]
    rfl
  · cases hnonce
    exact awaits_of_ping hsent h
  · cases hnonce
    rw [hs, ha]
    refine ⟨Nat.le_of_eq hnext, fun hmem => ?_⟩
    have hle : hb.nextNonce.toNat ≤ (sentNonces h).length := hn.accepted _ hmem
    omega
  · rw [ha] at hnonce
    have hle := hn.accepted nonce hnonce
    omega

/-- An accepted pong uses the outstanding nonce up. -/
theorem Nonces.accept (hn : Nonces h hb) {nonce now : UInt64}
    (houtstanding : hb.outstanding = some nonce) (hsent : sentNonce x = none)
    (haccepted : acceptedNonce x = some nonce) : Nonces (h ++ [x]) (hb.sawTraffic now) := by
  have hs : sentNonces (h ++ [x]) = sentNonces h := sentNonces_of_none hsent
  have ha : acceptedNonces (h ++ [x]) = acceptedNonces h ++ [nonce] := by
    rw [acceptedNonces_concat, haccepted]
    rfl
  obtain ⟨hle, hnew⟩ := hn.outstanding nonce houtstanding
  refine ⟨by rw [hs]; exact hn.next, nofun, nofun, fun n hmem => ?_, ?_⟩
  · rw [hs]
    rw [ha] at hmem
    rcases List.mem_append.mp hmem with hmem | hmem
    · exact hn.accepted n hmem
    · rw [List.mem_singleton.mp hmem]
      exact hle
  · rw [ha]
    exact List.nodup_append.mpr ⟨hn.nodup, List.nodup_singleton nonce, fun n hmem m hm heq =>
      hnew (by rwa [heq, List.mem_singleton.mp hm] at hmem)⟩

theorem Nonces.poll (hn : Nonces h hb) (now : UInt64)
    (hfew : (sentNonces (h ++ [⟨hb, .poll now, .polled (hb.poll now).2, (hb.poll now).1⟩])).length
      < 2 ^ 64) :
    Nonces (h ++ [⟨hb, .poll now, .polled (hb.poll now).2, (hb.poll now).1⟩]) (hb.poll now).1 := by
  rw [sentNonces_concat, List.length_append] at hfew
  rcases poll_cases hb now with ⟨_, hpoll⟩ | ⟨_, hpoll⟩
  · rw [hpoll]
    exact hn.keep rfl rfl rfl (Or.inr ⟨rfl, rfl⟩)
  · rcases hpoll with ⟨_, hpoll⟩ | ⟨_, missed, _, ⟨_, hpoll⟩ | ⟨_, hpoll⟩⟩
    · rw [hpoll] at hfew ⊢
      exact hn.ping now hb.missed hfew rfl rfl
    · rw [hpoll]
      exact hn.keep rfl rfl rfl (Or.inr ⟨rfl, rfl⟩)
    · rw [hpoll] at hfew ⊢
      exact hn.ping now missed hfew rfl rfl

theorem Nonces.call (hn : Nonces h hb) {e : Call} {o : Answer} (hcall : call hb e = some (hb', o))
    (hfew : (sentNonces (h ++ [⟨hb, e, o, hb'⟩])).length < 2 ^ 64) :
    Nonces (h ++ [⟨hb, e, o, hb'⟩]) hb' := by
  cases e with
  | poll now =>
    cases hcall
    exact hn.poll now hfew
  | sawTraffic now =>
    cases hcall
    exact hn.keep rfl rfl rfl (Or.inl rfl)
  | sawPong nonce now =>
    cases hcall
    by_cases hpong : hb.outstanding = some nonce
    · have hsaw : hb.sawPong nonce now = (hb.sawTraffic now, true) := if_pos hpong
      rw [hsaw]
      exact hn.accept hpong rfl rfl
    · have hsaw : hb.sawPong nonce now = (hb, false) := if_neg hpong
      rw [hsaw]
      exact hn.keep rfl rfl rfl (Or.inr ⟨rfl, rfl⟩)

theorem nonces_new (interval : UInt64) (maxMissed : UInt32) (created : UInt64) :
    Nonces [] (new interval maxMissed created) :=
  ⟨rfl, nofun, nofun, nofun, List.nodup_nil⟩

/-- What holds of every run that does not send too many pings. -/
theorem nonces_history (interval : UInt64) (maxMissed : UInt32) (created : UInt64)
    (calls : List Call)
    (hfew : (sentNonces (history interval maxMissed created calls)).length < 2 ^ 64) :
    Nonces (history interval maxMissed created calls) (after interval maxMissed created calls) := by
  refine history_invariant_start
    (fun (h : List Step) hb => (sentNonces h).length < 2 ^ 64 → Nonces h hb)
    (fun _ => nonces_new interval maxMissed created) ?_ calls hfew
  intro h hb e hb' o ih hcall hfew
  refine (ih ?_).call hcall hfew
  rw [sentNonces_concat, List.length_append] at hfew
  omega

/-- A pong is accepted only for the latest ping and before anything else was heard,
no nonce is accepted twice, and a refused pong changes nothing. -/
theorem pong_accepted_once (interval : UInt64) (maxMissed : UInt32) (created : UInt64)
    (calls : List Call)
    (hfew : (sentNonces (history interval maxMissed created calls)).length < 2 ^ 64) :
    (∀ nonce now, ((after interval maxMissed created calls).sawPong nonce now).2 = true →
      Awaits nonce (history interval maxMissed created calls)) ∧
    (acceptedNonces (history interval maxMissed created calls)).Nodup ∧
    (∀ nonce now, ((after interval maxMissed created calls).sawPong nonce now).2 = false →
      ((after interval maxMissed created calls).sawPong nonce now).1 =
        after interval maxMissed created calls) := by
  have hn := nonces_history interval maxMissed created calls hfew
  refine ⟨fun nonce now haccepted => ?_, hn.nodup, fun nonce now hrefused => ?_⟩
  · by_cases hpong : (after interval maxMissed created calls).outstanding = some nonce
    · exact hn.awaits nonce hpong
    · rw [sawPong, if_neg hpong] at haccepted
      cases haccepted
  · by_cases hpong : (after interval maxMissed created calls).outstanding = some nonce
    · rw [sawPong, if_pos hpong] at hrefused
      cases hrefused
    · rw [sawPong, if_neg hpong]

/-- A pong that comes again is refused. -/
theorem pong_accepted_once_again :
    (acceptedNonces (history 10 3 0
      [.poll 10, .sawPong 1 11, .sawPong 1 12, .poll 30, .sawPong 1 31, .sawPong 2 32])).Nodup :=
  (pong_accepted_once 10 3 0 _ (by decide)).2.1

end Heartbeat
end Session
end IndieWorker
