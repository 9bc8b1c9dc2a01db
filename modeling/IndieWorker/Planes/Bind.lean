import IndieWorker.Lib.Text

/-!
# Where the admin plane listens

`check_admin_bind` of `src/runtime/plane.rs`, beside what an address of this
machine is.
-/

namespace IndieWorker
namespace Planes

open Text

def Env.adminAllowPublicBind : String := "GHA_INDIE_WORKER_ADMIN_ALLOW_PUBLIC_BIND"

/-- The host of a bind address: what stands before the last colon, without
brackets. -/
def hostOf (bind : String) : String :=
  let host := ((rsplitOnce ':' bind.toList).map Prod.fst).getD bind.toList
  .ofList ((host.dropWhile (· == '[')).rdropWhile (· == ']'))

def isLoopback (host : String) : Bool :=
  host == "localhost" || host == "::1" || startsWith "127." host

/-- A bind address is only allowed to be public when the operator opted in. -/
def checkAdminBind (bind : String) (allowPublic : Bool) : Except String Unit :=
  if allowPublic then .ok ()
  else if isLoopback (hostOf bind) then .ok ()
  else
    .error ("refusing to bind the admin plane to " ++ bind ++ ": set " ++
      Env.adminAllowPublicBind ++
      "=1 only where an ingress boundary (Cloud Run internal ingress, k8s NetworkPolicy) " ++
      "is the real control")

theorem checkAdminBind_eq_ok_iff {bind : String} :
    checkAdminBind bind false = .ok () ↔ isLoopback (hostOf bind) = true := by
  unfold checkAdminBind
  by_cases h : isLoopback (hostOf bind) = true
  · simp [h]
  · simp [h]

/-! ## Addresses -/

/-- A number from 0 to 255 in decimal, without leading zeros. -/
def octet (text : List Char) : Option Nat :=
  if text ≠ [] ∧ text.all Char.isDigit ∧ digitsValue text < 256 ∧
      (text.head? = some '0' → text = ['0']) then
    some (digitsValue text)
  else none

/-- The four numbers of a dotted quad. -/
def ipv4 (text : List Char) : Option (Nat × Nat × Nat × Nat) :=
  match splitAll '.' text with
  | [a, b, c, d] => do
    let a ← octet a
    let b ← octet b
    let c ← octet c
    let d ← octet d
    return (a, b, c, d)
  | _ => none

/-- The host is `localhost`, `::1` or an IPv4 address inside 127.0.0.0/8. -/
def IsThisMachine (host : String) : Prop :=
  host = "localhost" ∨ host = "::1" ∨ ∃ b c d, ipv4 host.toList = some (127, b, c, d)

/-- Behind `127.` there is nothing but three more numbers of a dotted quad. -/
def QuadIfPrefixed (host : String) : Prop :=
  ∀ rest, host.toList = "127.".toList ++ rest →
    ∃ b c d, splitAll '.' rest = [b, c, d] ∧
      (octet b).isSome ∧ (octet c).isSome ∧ (octet d).isSome

theorem startsWith_iff {front s : String} :
    startsWith front s = true ↔ ∃ rest, s.toList = front.toList ++ rest := by
  rw [startsWith, List.isPrefixOf_iff_prefix]
  exact ⟨fun h => h.imp fun _ => Eq.symm, fun h => h.imp fun _ => Eq.symm⟩

theorem ipv4_of_prefixed (rest : List Char) :
    (∃ b c d, ipv4 ("127.".toList ++ rest) = some (127, b, c, d)) ↔
      ∃ b c d, splitAll '.' rest = [b, c, d] ∧
        (octet b).isSome ∧ (octet c).isSome ∧ (octet d).isSome := by
  have hsplit : splitAll '.' ("127.".toList ++ rest) = "127".toList :: splitAll '.' rest := by
    have hdot : '.' ∉ "127".toList := by decide
    rw [splitAll_eq_splitOn, splitAll_eq_splitOn]
    exact List.splitOn_append_cons_self_of_not_mem hdot rest
  have hfirst : octet "127".toList = some 127 := by decide
  unfold ipv4
  rw [hsplit]
  constructor
  · intro h
    obtain ⟨nb, nc, nd, h⟩ := h
    split at h
    · next a b c d hlist =>
      obtain ⟨rfl, htail⟩ := List.cons.inj hlist
      simp only [hfirst, Option.bind_eq_bind, Option.bind_some, Option.bind_eq_some_iff] at h
      obtain ⟨_, hb, _, hc, _, hd, _⟩ := h
      exact ⟨b, c, d, htail, by rw [hb]; rfl, by rw [hc]; rfl, by rw [hd]; rfl⟩
    · cases h
  · intro h
    obtain ⟨b, c, d, hlist, hb, hc, hd⟩ := h
    obtain ⟨nb, hb⟩ := Option.isSome_iff_exists.mp hb
    obtain ⟨nc, hc⟩ := Option.isSome_iff_exists.mp hc
    obtain ⟨nd, hd⟩ := Option.isSome_iff_exists.mp hd
    refine ⟨nb, nc, nd, ?_⟩
    rw [hlist]
    simp only [hfirst, hb, hc, hd, Option.bind_eq_bind, Option.bind_some, Option.pure_def]

/-- A bind address that needs no opt-in names this machine, unless its host only
begins like an address of this machine. -/
theorem admin_bind_loopback_iff (bind : String) :
    (checkAdminBind bind false = .ok () → IsThisMachine (hostOf bind)) ↔
      QuadIfPrefixed (hostOf bind) := by
  rw [checkAdminBind_eq_ok_iff]
  generalize hostOf bind = host
  constructor
  · intro h rest hrest
    have hlocal : IsThisMachine host := by
      refine h ?_
      rw [isLoopback, startsWith_iff.mpr ⟨rest, hrest⟩, Bool.or_true]
    rcases hlocal with hname | hname | hquad
    · rw [hname] at hrest
      cases hrest
    · rw [hname] at hrest
      cases hrest
    · rw [hrest] at hquad
      exact (ipv4_of_prefixed rest).mp hquad
  · intro h hloopback
    rw [isLoopback, Bool.or_eq_true, Bool.or_eq_true, beq_iff_eq, beq_iff_eq] at hloopback
    rcases hloopback with (hname | hname) | hprefix
    · exact .inl hname
    · exact .inr (.inl hname)
    · obtain ⟨rest, hrest⟩ := startsWith_iff.mp hprefix
      refine .inr (.inr ?_)
      rw [hrest]
      exact (ipv4_of_prefixed rest).mpr (h rest hrest)

/-- A name of somebody else's that begins with `127.` passes for this machine. -/
theorem admin_bind_takes_names :
    ¬ ∀ bind, checkAdminBind bind false = .ok () → IsThisMachine (hostOf bind) := by
  intro h
  have hok : checkAdminBind "127.evil.example:8787" false = .ok () := by decide
  have hhost : hostOf "127.evil.example:8787" = "127.evil.example" := by decide
  have hlocal := h _ hok
  rw [hhost] at hlocal
  rcases hlocal with hname | hname | ⟨b, c, d, hquad⟩
  · exact absurd hname (by decide)
  · exact absurd hname (by decide)
  · have hnone : ipv4 "127.evil.example".toList = none := by decide
    rw [hnone] at hquad
    cases hquad

end Planes
end IndieWorker
