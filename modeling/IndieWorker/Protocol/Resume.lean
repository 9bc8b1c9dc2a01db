import IndieWorker.Protocol.Ws

/-!
# Resuming a stream

A client that was sent the numbers up to `lastSeen` reconnects, and the server
answers with `plan_resume`.  Replay and live frames make one stream, which the
client takes whole whatever else is delivered with it.
-/

namespace IndieWorker
namespace Protocol

open Run

/-- What each answer says of the window and of what the client has seen. -/
theorem planResume_cases (earliest latest lastSeen : UInt64) :
    (latest ≤ lastSeen ∧ planResume (earliest, latest) (some lastSeen) = .upToDate) ∨
    (lastSeen < latest ∧ lastSeen.toNat + 1 < earliest.toNat ∧
      planResume (earliest, latest) (some lastSeen) = .windowLost earliest) ∨
    (lastSeen < latest ∧ ∃ wanted : UInt64, wanted.toNat = lastSeen.toNat + 1 ∧
      earliest ≤ wanted ∧
        planResume (earliest, latest) (some lastSeen) = .replay wanted latest) := by
  unfold planResume
  by_cases hcurrent : lastSeen ≥ latest
  · exact .inl ⟨hcurrent, if_pos hcurrent⟩
  · have hlt : lastSeen < latest := UInt64.not_le.mp hcurrent
    have hbelow : lastSeen.toNat < 2 ^ 64 - 1 := by
      have := UInt64.lt_iff_toNat_lt.mp hlt
      have := latest.toNat_lt
      omega
    have hwanted := saturatingAdd_one hbelow
    simp only [if_neg hcurrent]
    by_cases hlost : saturatingAdd lastSeen 1 < earliest
    · refine .inr (.inl ⟨hlt, ?_, if_pos hlost⟩)
      rw [UInt64.lt_iff_toNat_lt, hwanted] at hlost
      exact hlost
    · exact .inr (.inr ⟨hlt, _, hwanted, UInt64.not_lt.mp hlost, if_neg hlost⟩)

/-- The client takes the stream by itself, and takes it in order and whole when
other frames are delivered with it.  It takes nothing else if no number beyond
`last` is among them. -/
def Hears (s : Sequencer) (stream : List UInt64) (last : Nat) : Prop :=
  s.accepted stream = stream ∧
    ∀ deliveries, (∀ d ∈ deliveries, d.toNat < 2 ^ 64 - 1) → stream.Sublist deliveries →
      stream <+: s.accepted deliveries ∧
        ((∀ d ∈ deliveries, d.toNat ≤ last) → s.accepted deliveries = stream)

/-- A run of numbers from the next one on is what the client accepts, among any
frames that carry no later number. -/
theorem accepted_of_dense {s : Sequencer} {stream deliveries : List UInt64} {last k : Nat}
    (hdense : stream.map UInt64.toNat = List.range' s.next.toNat k)
    (hlast : s.next.toNat + k = last + 1) (hmax : last < 2 ^ 64 - 1)
    (hle : ∀ d ∈ deliveries, d.toNat ≤ last) (hsub : stream.Sublist deliveries) :
    s.accepted deliveries = stream := by
  have hinj : Function.Injective (List.map UInt64.toNat) :=
    List.map_injective_iff.mpr toNat_injective
  have hbelow : ∀ d ∈ deliveries, d.toNat < 2 ^ 64 - 1 := fun d hd => by
    have := hle d hd
    omega
  apply hinj
  rw [Sequencer.map_toNat_accepted hbelow, hdense]
  refine Counter.taken_eq (hdense ▸ hsub.map _) fun d hd => ?_
  obtain ⟨x, hx, rfl⟩ := List.mem_map.mp hd
  have := hle x hx
  omega

theorem hears_of_dense {s : Sequencer} {stream : List UInt64} {last k : Nat}
    (hdense : stream.map UInt64.toNat = List.range' s.next.toNat k)
    (hlast : s.next.toNat + k = last + 1) (hmax : last < 2 ^ 64 - 1) : Hears s stream last := by
  have hbound : ∀ d ∈ stream, d.toNat ≤ last := by
    intro d hd
    have hmem : d.toNat ∈ List.range' s.next.toNat k := hdense ▸ List.mem_map_of_mem hd
    rw [List.mem_range'_1] at hmem
    omega
  refine ⟨accepted_of_dense hdense hlast hmax hbound (List.Sublist.refl _),
    fun deliveries hbelow hsub => ⟨?_, fun hle => accepted_of_dense hdense hlast hmax hle hsub⟩⟩
  have hprefix := Counter.prefix_taken (hdense ▸ hsub.map UInt64.toNat)
  rw [← Sequencer.map_toNat_accepted hbelow, ← hdense] at hprefix
  exact (List.prefix_map_iff_of_injective toNat_injective).mp hprefix

/-- Replay and live frames are one run of numbers. -/
theorem hears_replay {lastSeen start latest : UInt64} {n : Nat}
    (hstart : start.toNat = lastSeen.toNat + 1) (hle : start ≤ latest)
    (hmax : latest.toNat + n < 2 ^ 64 - 1) :
    Hears (.resumingAfter lastSeen)
      (inclusive start latest ++ Sequencer.issued n (.resumingAfter latest))
      (latest.toNat + n) := by
  rw [UInt64.le_iff_toNat_le] at hle
  have hclient : (Sequencer.resumingAfter lastSeen).next.toNat = start.toNat := by
    rw [hstart]
    exact Sequencer.resumingAfter_next (by omega)
  have hserver := @Sequencer.resumingAfter_next latest (by omega)
  have hlive := Sequencer.map_toNat_issued (n := n) (s := .resumingAfter latest) (by omega)
  have hjoin : latest.toNat + 1 = start.toNat + 1 * (latest.toNat + 1 - start.toNat) := by omega
  have hdense : (inclusive start latest ++ Sequencer.issued n (.resumingAfter latest)).map
      UInt64.toNat = List.range' start.toNat (latest.toNat + 1 - start.toNat + n) := by
    rw [List.map_append, map_toNat_inclusive, hlive, hserver, ← List.range'_append, ← hjoin]
  rw [← hclient] at hdense
  exact hears_of_dense hdense (by omega) hmax

theorem hears_live {latest : UInt64} {n : Nat} (hmax : latest.toNat + n < 2 ^ 64 - 1) :
    Hears (.resumingAfter latest) (Sequencer.issued n (.resumingAfter latest))
      (latest.toNat + n) := by
  have hserver := @Sequencer.resumingAfter_next latest (by omega)
  exact hears_of_dense (Sequencer.map_toNat_issued (by omega)) (by omega) hmax

/-- A request from just before the window is answered with the whole of it. -/
theorem planResume_before {earliest latest lastSeen : UInt64} (hwindow : earliest ≤ latest)
    (hbefore : lastSeen.toNat + 1 = earliest.toNat) :
    planResume (earliest, latest) (some lastSeen) = .replay earliest latest := by
  rw [UInt64.le_iff_toNat_le] at hwindow
  rcases planResume_cases earliest latest lastSeen with
    ⟨hcurrent, _⟩ | ⟨_, hlost, _⟩ | ⟨_, wanted, hwanted, _, hplan⟩
  · rw [UInt64.le_iff_toNat_le] at hcurrent
    omega
  · omega
  · have hearliest : wanted = earliest := UInt64.toNat_inj.mp (by omega)
    rw [hplan, hearliest]

/-- Every answer to a resume request leaves the client able to take exactly what
it has not seen, and any other frame leaves it as it was. -/
theorem resume_exact {earliest latest lastSeen : UInt64} {n : Nat} (hwindow : earliest ≤ latest)
    (hseen : lastSeen ≤ latest) (hmax : latest.toNat + n < 2 ^ 64 - 1) :
    (∀ start through, planResume (earliest, latest) (some lastSeen) = .replay start through →
      start.toNat = lastSeen.toNat + 1 ∧ earliest ≤ start ∧ start ≤ through ∧ through = latest ∧
        Hears (.resumingAfter lastSeen)
          (inclusive start through ++ Sequencer.issued n (.resumingAfter latest))
          (latest.toNat + n)) ∧
    (planResume (earliest, latest) (some lastSeen) = .upToDate →
      Hears (.resumingAfter lastSeen) (Sequencer.issued n (.resumingAfter latest))
        (latest.toNat + n)) ∧
    (∀ e, planResume (earliest, latest) (some lastSeen) = .windowLost e ↔
      e = earliest ∧ lastSeen.toNat + 1 < earliest.toNat) ∧
    (∀ e, planResume (earliest, latest) (some lastSeen) = .windowLost e →
      planResume (earliest, latest) (some (e - 1)) = .replay earliest latest) ∧
    (∀ (s : Sequencer) sequence, sequence ≠ s.next →
      s.accept sequence = (.error (.outOfOrder s.next sequence), s)) := by
  rw [UInt64.le_iff_toNat_le] at hwindow hseen
  rcases planResume_cases earliest latest lastSeen with
    ⟨hcurrent, hplan⟩ | ⟨_, hlost, hplan⟩ | ⟨hlt, wanted, hwanted, hretained, hplan⟩
  · rw [UInt64.le_iff_toNat_le] at hcurrent
    have hsame : lastSeen = latest := UInt64.toNat_inj.mp (by omega)
    rw [hplan, hsame]
    refine ⟨nofun, fun _ => hears_live hmax, fun e => ?_, nofun,
      fun s sequence => Sequencer.accept_other⟩
    exact iff_of_false nofun fun h => by omega
  · rw [hplan]
    refine ⟨nofun, nofun, fun e => ?_, fun e he => ?_, fun s sequence => Sequencer.accept_other⟩
    · rw [Resume.windowLost.injEq]
      exact ⟨fun h => ⟨h.symm, hlost⟩, fun h => h.1.symm⟩
    · cases he
      have hpos : (1 : UInt64) ≤ earliest := by
        rw [UInt64.le_iff_toNat_le, UInt64.toNat_one]
        omega
      refine planResume_before (UInt64.le_iff_toNat_le.mpr hwindow) ?_
      rw [UInt64.toNat_sub_of_le _ _ hpos, UInt64.toNat_one]
      omega
  · rw [hplan]
    refine ⟨fun start through heq => ?_, nofun, fun e => ?_, nofun,
      fun s sequence => Sequencer.accept_other⟩
    · cases heq
      have hle : wanted ≤ latest := by
        rw [UInt64.lt_iff_toNat_lt] at hlt
        rw [UInt64.le_iff_toNat_le]
        omega
      exact ⟨hwanted, hretained, hle, rfl, hears_replay hwanted hle hmax⟩
    · rw [UInt64.le_iff_toNat_le] at hretained
      exact iff_of_false nofun fun h => by omega

theorem resume_exact_of_window :
    Hears (.resumingAfter 14) (inclusive 15 20 ++ Sequencer.issued 2 (.resumingAfter 20)) 22 :=
  ((resume_exact (n := 2) (show (10 : UInt64) ≤ 20 by decide) (show (14 : UInt64) ≤ 20 by decide)
    (by decide)).1 15 20 (by decide)).2.2.2.2

end Protocol
end IndieWorker
