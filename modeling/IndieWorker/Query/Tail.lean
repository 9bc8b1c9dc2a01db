import IndieWorker.Query.Runs

/-!
# Following a job's log

A client follows the log of one job over a websocket.  The job's chunks are numbered,
stored and in time dropped.  On each connection the server answers the client's last
number with `plan_resume` over the retained window and then sends what
`log_chunks_after` reads, page by page.  The connection may drop anywhere.
-/

namespace IndieWorker

namespace Protocol
namespace Sequencer

/-- The last number that was accepted. -/
def lastSeen (s : Sequencer) : Option UInt64 := if s.next = 0 then none else some (s.next - 1)

/-- The end that takes `n` next. -/
def awaiting (n : UInt64) : Sequencer := if n = 0 then .new else .resumingAfter (n - 1)

theorem toNat_pred {n : UInt64} (h : n ≠ 0) : (n - 1).toNat + 1 = n.toNat := by
  have hpos : n.toNat ≠ 0 := fun hzero => h (UInt64.toNat_inj.mp hzero)
  have hle : (1 : UInt64) ≤ n := by
    rw [UInt64.le_iff_toNat_le, UInt64.toNat_one]
    omega
  rw [UInt64.toNat_sub_of_le _ _ hle, UInt64.toNat_one]
  omega

theorem awaiting_next (n : UInt64) : (awaiting n).next = n := by
  unfold awaiting
  split
  · rename_i hzero
    exact hzero.symm
  · rename_i hpos
    have hpred := toNat_pred hpos
    have hlt := n.toNat_lt
    refine UInt64.toNat_inj.mp ?_
    rw [resumingAfter_next (by omega), hpred]

theorem lastSeen_cases (s : Sequencer) :
    (s.next.toNat = 0 ∧ s.lastSeen = none) ∨
      ∃ last : UInt64, last.toNat + 1 = s.next.toNat ∧ s.lastSeen = some last := by
  by_cases hzero : s.next = 0
  · exact .inl ⟨congrArg UInt64.toNat hzero, if_pos hzero⟩
  · exact .inr ⟨_, toNat_pred hzero, if_neg hzero⟩

end Sequencer
end Protocol

namespace Query

open Protocol

/-- The log of a job and a client that follows it. -/
structure Tail (ι β : Type) where
  /-- The rows of `run_log_chunks`, in any order. -/
  chunks : List (LogChunk ι β)
  issuer : Sequencer
  /-- Every chunk of the job, retained or not. -/
  written : List (LogChunk ι β)
  /-- How many of them are no longer retained. -/
  dropped : Nat
  /-- The number after which the server reads on.  It reads nothing for a client that
  was told to subscribe again. -/
  after : Option Int
  transit : List (LogChunk ι β)
  client : Sequencer
  lines : List (LogChunk ι β)
  /-- What the client was told it will not get: from the first number up to, but not
  including, the second. -/
  told : List (UInt64 × UInt64)
  /-- The errors of this connection. -/
  refused : List ProtocolError

namespace Tail

variable {ι β : Type}

/-- A job without chunks and a client that has not connected. -/
def start : Tail ι β where
  chunks := []
  issuer := .new
  written := []
  dropped := 0
  after := none
  transit := []
  client := .new
  lines := []
  told := []
  refused := []

/-- The client takes the next frame. -/
def deliver (s : Tail ι β) : Tail ι β :=
  match s.transit with
  | [] => s
  | row :: rest =>
    match s.client.accept row.sequence with
    | (.ok (), client) =>
      { s with
        transit := rest
        client := client
        lines := s.lines ++ [row] }
    | (.error e, client) =>
      { s with
        transit := rest
        client := client
        refused := s.refused ++ [e] }

section Steps

variable [DecidableEq ι]

/-- A connection, with the answer to what the client has seen. -/
def connect (jobId : ι) (s : Tail ι β) : Tail ι β :=
  match planFor s.chunks jobId s.client.lastSeen with
  | .replay start _ =>
    { s with
      after := some (start.toNat - 1)
      transit := []
      client := .awaiting start
      told := s.told ++ [(s.client.next, start)]
      refused := [] }
  | .upToDate =>
    { s with
      after := some (s.client.next.toNat - 1)
      transit := []
      refused := [] }
  | .windowLost earliest =>
    { s with
      after := none
      transit := []
      client := .awaiting earliest
      told := s.told ++ [(s.client.next, earliest)]
      refused := [] }

/-- The server reads on and sends what it finds. -/
def page (jobId : ι) (limit : UInt64) (s : Tail ι β) : Tail ι β :=
  match s.after with
  | none => s
  | some after =>
    let rows := logChunksAfter s.chunks jobId after limit
    { s with
      after := some ((rows.getLast?.map fun c => (c.sequence.toNat : Int)).getD after)
      transit := s.transit ++ rows }

/-- What the two ends of a connection do. -/
inductive Follow (jobId : ι) : Tail ι β → Tail ι β → Prop where
  | connect (s : Tail ι β) : Follow jobId s (s.connect jobId)
  | page (s : Tail ι β) (limit : UInt64) : Follow jobId s (s.page jobId limit)
  | deliver (s : Tail ι β) : Follow jobId s s.deliver

/-- What may happen.  A number of a chunk is an `i64`, as `after_sequence` is. -/
inductive Step (jobId : ι) : Tail ι β → Tail ι β → Prop where
  | write (s : Tail ι β) (rest : β) (chunks : List (LogChunk ι β))
      (hfits : s.written.length < 2 ^ 63)
      (hchunks : chunks.Perm (⟨jobId, s.issuer.issue.1, rest⟩ :: s.chunks)) :
      Step jobId s { s with
        chunks := chunks
        issuer := s.issuer.issue.2
        written := s.written ++ [⟨jobId, s.issuer.issue.1, rest⟩] }
  | drop (s : Tail ι β) (k : Nat) (chunks : List (LogChunk ι β)) (hk : k ≤ s.written.length)
      (hchunks : chunks.Perm
        (s.chunks.filter fun c => ¬ (c.jobId = jobId ∧ c.sequence.toNat < k))) :
      Step jobId s { s with chunks := chunks, dropped := max s.dropped k }
  | elsewhere (s : Tail ι β) (chunks : List (LogChunk ι β))
      (hchunks : (chunks.filter fun c => c.jobId = jobId).Perm
        (s.chunks.filter fun c => c.jobId = jobId)) :
      Step jobId s { s with chunks := chunks }
  | follow {s s' : Tail ι β} (h : Follow jobId s s') : Step jobId s s'

end Steps

/-! ## The rows of the job -/

/-- The chunks carry the numbers from `n` on. -/
def Numbered (jobId : ι) (n : Nat) (rows : List (LogChunk ι β)) : Prop :=
  ∀ i row, rows[i]? = some row → row.jobId = jobId ∧ row.sequence.toNat = n + i

section Numbered

variable {jobId : ι} {rows : List (LogChunk ι β)} {n : Nat}

theorem Numbered.drop (h : Numbered jobId n rows) (k : Nat) :
    Numbered jobId (n + k) (rows.drop k) := by
  intro i row hrow
  rw [List.getElem?_drop] at hrow
  obtain ⟨hjob, hsequence⟩ := h _ _ hrow
  exact ⟨hjob, by omega⟩

theorem Numbered.concat (h : Numbered jobId n rows) {row : LogChunk ι β}
    (hjob : row.jobId = jobId) (hsequence : row.sequence.toNat = n + rows.length) :
    Numbered jobId n (rows ++ [row]) := by
  intro i row' hrow'
  rcases Nat.lt_or_ge i rows.length with hlt | hge
  · rw [List.getElem?_append_left hlt] at hrow'
    exact h i row' hrow'
  · rw [List.getElem?_append_right hge, List.getElem?_singleton] at hrow'
    split at hrow'
    · cases hrow'
      exact ⟨hjob, by omega⟩
    · cases hrow'

theorem Numbered.of_mem (h : Numbered jobId n rows) {row : LogChunk ι β} (hrow : row ∈ rows) :
    row.jobId = jobId ∧ ∃ i, rows[i]? = some row ∧ row.sequence.toNat = n + i := by
  obtain ⟨i, hi⟩ := List.getElem?_of_mem hrow
  exact ⟨(h i row hi).1, i, hi, (h i row hi).2⟩

theorem Numbered.eq (h : Numbered jobId n rows) {row row' : LogChunk ι β} (hrow : row ∈ rows)
    (hrow' : row' ∈ rows) (heq : row.sequence = row'.sequence) : row = row' := by
  obtain ⟨-, i, hi, hn⟩ := h.of_mem hrow
  obtain ⟨-, j, hj, hm⟩ := h.of_mem hrow'
  have hij : i = j := by
    rw [heq] at hn
    omega
  rw [hij] at hi
  exact Option.some.inj (hi.symm.trans hj)

theorem Numbered.increasing (h : Numbered jobId n rows) :
    rows.Pairwise fun a b => a.sequence ≤ b.sequence := by
  rw [List.pairwise_iff_getElem]
  intro i j hi hj hij
  have hfirst := (h i _ (List.getElem?_eq_getElem hi)).2
  have hsecond := (h j _ (List.getElem?_eq_getElem hj)).2
  rw [UInt64.le_iff_toNat_le]
  omega

/-- The chunks from a number on are all but the first. -/
theorem Numbered.filter (h : Numbered jobId n rows) (k : Nat) :
    (rows.filter fun c => (c.sequence.toNat : Int) > (k : Int) - 1) = rows.drop (k - n) := by
  induction rows generalizing n with
  | nil => rw [List.filter_nil, List.drop_nil]
  | cons row rows ih =>
    have htail : Numbered jobId (n + 1) rows := by
      have hdrop := h.drop 1
      rwa [List.drop_succ_cons, List.drop_zero] at hdrop
    have hrow := (h 0 row rfl).2
    rw [List.filter_cons, ih htail]
    by_cases hk : k ≤ n
    · have hin : (row.sequence.toNat : Int) > (k : Int) - 1 := by omega
      rw [if_pos (decide_eq_true hin), Nat.sub_eq_zero_of_le hk,
        Nat.sub_eq_zero_of_le (Nat.le_succ_of_le hk), List.drop_zero, List.drop_zero]
    · have hout : ¬ (row.sequence.toNat : Int) > (k : Int) - 1 := by omega
      have hpred : k - n = k - (n + 1) + 1 := by omega
      rw [if_neg (by rwa [decide_eq_true_eq]), hpred, List.drop_succ_cons]

end Numbered

section Rows

variable [DecidableEq ι] {jobId : ι} {chunks rows : List (LogChunk ι β)} {n : Nat}

/-- What the query reads of a job whose retained rows are `rows`. -/
theorem logChunksAfter_eq (hrows : (chunks.filter fun c => c.jobId = jobId).Perm rows)
    (hnumbered : Numbered jobId n rows) (k : Nat) (limit : UInt64) :
    logChunksAfter chunks jobId (k - 1) limit =
      (rows.drop (k - n)).take (min limit.toNat (2 ^ 63 - 1)) := by
  have hfilter : (chunks.filter fun c => c.jobId = jobId ∧
      (c.sequence.toNat : Int) > (k : Int) - 1).Perm (rows.drop (k - n)) := by
    have hperm := hrows.filter fun c => (c.sequence.toNat : Int) > (k : Int) - 1
    rw [hnumbered.filter k, List.filter_filter] at hperm
    refine List.Perm.trans (List.Perm.of_eq (List.filter_congr fun c _ => ?_)) hperm
    rw [← Bool.decide_and, decide_eq_decide, and_comm]
  have hsorted : ((chunks.filter fun c => c.jobId = jobId ∧
      (c.sequence.toNat : Int) > (k : Int) - 1).mergeSort
        fun a b => a.sequence ≤ b.sequence).Pairwise fun a b => a.sequence ≤ b.sequence := by
    refine (List.pairwise_mergeSort (fun a b c hab hbc => ?_) (fun a b => ?_) _).imp
      of_decide_eq_true
    · exact decide_eq_true (UInt64.le_trans (of_decide_eq_true hab) (of_decide_eq_true hbc))
    · rw [Bool.or_eq_true, decide_eq_true_iff, decide_eq_true_iff]
      exact UInt64.le_total a.sequence b.sequence
  have hperm := (List.mergeSort_perm _ fun a b => a.sequence ≤ b.sequence).trans hfilter
  unfold logChunksAfter
  rw [hperm.eq_of_pairwise (fun a b ha hb hab hba => ?_) hsorted (hnumbered.drop _).increasing]
  have hmem := List.mem_of_mem_drop (hperm.subset ha)
  exact hnumbered.eq hmem (List.mem_of_mem_drop hb) (UInt64.le_antisymm hab hba)

theorem mem_sequences (hrows : (chunks.filter fun c => c.jobId = jobId).Perm rows)
    (hnumbered : Numbered jobId n rows) (x : UInt64) :
    x ∈ sequences chunks jobId ↔ n ≤ x.toNat ∧ x.toNat < n + rows.length := by
  unfold sequences
  rw [(hrows.map LogChunk.sequence).mem_iff, List.mem_map]
  refine ⟨fun ⟨row, hrow, heq⟩ => ?_, fun ⟨hle, hlt⟩ => ?_⟩
  · obtain ⟨-, i, hi, hn⟩ := hnumbered.of_mem hrow
    have hlength := (List.getElem?_eq_some_iff.mp hi).1
    rw [← heq]
    omega
  · have hi : x.toNat - n < rows.length := by omega
    refine ⟨rows[x.toNat - n], List.getElem_mem hi, UInt64.toNat_inj.mp ?_⟩
    have hsequence := (hnumbered _ _ (List.getElem?_eq_getElem hi)).2
    omega

/-- The window of a log that is not empty goes from its first number to its last. -/
theorem window_of_rows (hrows : (chunks.filter fun c => c.jobId = jobId).Perm rows)
    (hnumbered : Numbered jobId n rows) (hne : rows ≠ []) (hfits : n + rows.length ≤ 2 ^ 63) :
    (logChunkWindow chunks jobId).earliest.toNat = n ∧
      (logChunkWindow chunks jobId).latest.toNat + 1 = n + rows.length := by
  have hmem := mem_sequences hrows hnumbered
  have hpos := List.length_pos_of_ne_nil hne
  have hto : ∀ m, m < n + rows.length → (UInt64.ofNat m).toNat = m := fun m hm =>
    UInt64.toNat_ofNat_of_lt' (show m < 2 ^ 64 by omega)
  have hfirst : UInt64.ofNat n ∈ sequences chunks jobId := by
    rw [hmem, hto n (by omega)]
    omega
  have hlast : UInt64.ofNat (n + rows.length - 1) ∈ sequences chunks jobId := by
    rw [hmem, hto _ (by omega)]
    omega
  have hsome := List.ne_nil_of_mem hfirst
  obtain ⟨earliest, hmin⟩ := Option.isSome_iff_exists.mp (List.isSome_min?_of_ne_nil hsome)
  obtain ⟨latest, hmax⟩ := Option.isSome_iff_exists.mp (List.isSome_max?_of_ne_nil hsome)
  simp only [logChunkWindow, hmin, hmax, Option.getD_some]
  rw [List.min?_eq_some_iff] at hmin
  rw [List.max?_eq_some_iff] at hmax
  have hup := UInt64.le_iff_toNat_le.mp (hmin.2 _ hfirst)
  have hdown := UInt64.le_iff_toNat_le.mp (hmax.2 _ hlast)
  have hearliest := (hmem earliest).mp hmin.1
  have hlatest := (hmem latest).mp hmax.1
  rw [hto _ (by omega)] at hup hdown
  omega

/-- The three answers to a client that takes `client.next` next. -/
theorem planFor_cases (hrows : (chunks.filter fun c => c.jobId = jobId).Perm rows)
    (hnumbered : Numbered jobId n rows) (hfits : n + rows.length ≤ 2 ^ 63) (client : Sequencer)
    (hclient : client.next.toNat ≤ n + rows.length) :
    (∃ start through, planFor chunks jobId client.lastSeen = .replay start through ∧
      client.next.toNat ≤ start.toNat ∧ (client.next.toNat < start.toNat → start.toNat ≤ n) ∧
        start.toNat ≤ n + rows.length ∧ (rows ≠ [] → n ≤ start.toNat)) ∨
    (planFor chunks jobId client.lastSeen = .upToDate ∧
      (rows ≠ [] → client.next.toNat = n + rows.length)) ∨
    (∃ earliest, planFor chunks jobId client.lastSeen = .windowLost earliest ∧
      client.next.toNat < earliest.toNat ∧ earliest.toNat = n) := by
  by_cases hne : rows = []
  · have hempty : sequences chunks jobId = [] := by
      rw [sequences, (hrows.trans (List.Perm.of_eq hne)).eq_nil]
      rfl
    rcases client.lastSeen_cases with ⟨hzero, hnone⟩ | ⟨last, -, hsome⟩
    · have hplan : planFor chunks jobId none = .replay 0 0 := by
        rw [planFor, logChunkWindow, hempty]
        rfl
      rw [hnone, hplan]
      refine .inl ⟨0, 0, rfl, ?_, fun _ => ?_, ?_, fun h => absurd hne h⟩ <;>
        rw [UInt64.toNat_zero] <;> omega
    · rw [hsome, planFor_seen_of_empty hempty]
      exact .inr (.inl ⟨rfl, fun h => absurd hne h⟩)
  · obtain ⟨hearliest, hlatest⟩ := window_of_rows hrows hnumbered hne hfits
    unfold planFor
    rcases client.lastSeen_cases with ⟨hzero, hnone⟩ | ⟨last, hlast, hsome⟩
    · rw [hnone]
      refine .inl ⟨_, _, rfl, ?_, ?_, ?_, ?_⟩ <;> omega
    · rw [hsome]
      dsimp only
      rcases planResume_cases (logChunkWindow chunks jobId).earliest
          (logChunkWindow chunks jobId).latest last with
        ⟨hcurrent, hplan⟩ | ⟨-, hlost, hplan⟩ | ⟨-, wanted, hwanted, hretained, hplan⟩
      · rw [UInt64.le_iff_toNat_le] at hcurrent
        exact .inr (.inl ⟨hplan, fun _ => by omega⟩)
      · exact .inr (.inr ⟨_, hplan, by omega, hearliest⟩)
      · rw [UInt64.le_iff_toNat_le] at hretained
        refine .inl ⟨wanted, _, hplan, ?_, ?_, ?_, ?_⟩ <;> omega

end Rows

/-! ## What is on the connection -/

/-- The frames lead the client from one number to another.  They pass over chunks that are
no longer retained, and over no others. -/
inductive Streams (written : List (LogChunk ι β)) (dropped : Nat) :
    Nat → List (LogChunk ι β) → Nat → Prop where
  | nil (d : Nat) : Streams written dropped d [] d
  | row {d n e : Nat} {row : LogChunk ι β} {rest : List (LogChunk ι β)}
      (hrow : written[n]? = some row) (hle : d ≤ n) (hskip : d < n → n ≤ dropped)
      (hrest : Streams written dropped (n + 1) rest e) : Streams written dropped d (row :: rest) e

section Streams

variable {jobId : ι} {written frames later : List (LogChunk ι β)} {dropped d m e : Nat}

theorem Streams.le (h : Streams written dropped d frames e) : d ≤ e := by
  induction h with
  | nil d => exact Nat.le_refl d
  | row hrow hle hskip hrest ih => omega

theorem Streams.append (h : Streams written dropped d frames m)
    (h' : Streams written dropped m later e) : Streams written dropped d (frames ++ later) e := by
  induction h with
  | nil d => exact h'
  | row hrow hle hskip hrest ih => exact .row hrow hle hskip (ih h')

theorem Streams.eq (h : Streams written dropped d [] e) : d = e := by
  cases h
  rfl

/-- More chunks and fewer that are retained change nothing on the way. -/
theorem Streams.grow (h : Streams written dropped d frames e) (more : List (LogChunk ι β))
    {dropped' : Nat} (hle : dropped ≤ dropped') :
    Streams (written ++ more) dropped' d frames e := by
  induction h with
  | nil d => exact .nil d
  | row hrow hd hskip hrest ih =>
    refine .row ?_ hd (fun hlt => Nat.le_trans (hskip hlt) hle) ih
    rw [List.getElem?_append_left (List.getElem?_eq_some_iff.mp hrow).1]
    exact hrow

theorem Streams.above (h : Streams written dropped d frames e)
    (hnumbered : Numbered jobId 0 written) : ∀ row ∈ frames, d ≤ row.sequence.toNat := by
  induction h with
  | nil d => exact List.forall_mem_nil _
  | row hrow hle hskip hrest ih =>
    have hsequence := (hnumbered _ _ hrow).2
    refine List.forall_mem_cons.mpr ⟨by omega, fun row hmem => ?_⟩
    have := ih row hmem
    omega

/-- Consecutive chunks lead from the first to behind the last. -/
theorem streams_take (dropped k : Nat) (hd : d ≤ written.length) :
    Streams written dropped d ((written.drop d).take k) (min (d + k) written.length) := by
  induction k generalizing d with
  | zero =>
    rw [List.take_zero, Nat.add_zero, Nat.min_eq_left hd]
    exact .nil d
  | succ k ih =>
    rcases Nat.lt_or_ge d written.length with hlt | hge
    · rw [List.drop_eq_getElem_cons hlt, List.take_succ_cons]
      refine .row (List.getElem?_eq_getElem hlt) (Nat.le_refl d)
        (fun h => absurd h (Nat.lt_irrefl d)) ?_
      rw [← Nat.add_assoc, Nat.add_right_comm]
      exact ih hlt
    · rw [List.drop_eq_nil_of_le hge, List.take_nil, Nat.min_eq_right (by omega),
        Nat.le_antisymm hge hd]
      exact .nil d

/-- Frames may begin behind chunks that are no longer retained. -/
theorem Streams.skip (h : Streams written dropped m frames e) (hm : m = max dropped d)
    (hne : frames ≠ []) : Streams written dropped d frames e := by
  cases h with
  | nil => exact absurd rfl hne
  | @row _ n _ row rest hrow hle hskip hrest =>
    refine .row hrow (by omega) (fun hlt => ?_) hrest
    by_cases hover : m < n
    · exact hskip hover
    · omega

theorem Streams.last (h : Streams written dropped d frames e) (hnumbered : Numbered jobId 0 written)
    (hne : frames ≠ []) : ∃ row, frames.getLast? = some row ∧ row.sequence.toNat + 1 = e := by
  induction h with
  | nil d => exact absurd rfl hne
  | @row d n e row rest hrow hle hskip hrest ih =>
    by_cases hnil : rest = []
    · subst hnil
      have hsequence := (hnumbered _ _ hrow).2
      exact ⟨row, rfl, by rw [← hrest.eq]; omega⟩
    · obtain ⟨last, hlast, heq⟩ := ih hnil
      refine ⟨last, ?_, heq⟩
      rw [List.getLast?_cons, hlast]
      rfl

end Streams

/-! ## What the client has -/

/-- The client was told that it will not get this number. -/
def Gone (told : List (UInt64 × UInt64)) (n : Nat) : Prop :=
  ∃ range ∈ told, range.1.toNat ≤ n ∧ n < range.2.toNat

instance Gone.decidable (told : List (UInt64 × UInt64)) : DecidablePred (Gone told) := fun _ =>
  inferInstanceAs (Decidable (∃ range ∈ told, _ ∧ _))

/-- The chunks of the job below `next`, but for those that the client was told are gone. -/
def received (written : List (LogChunk ι β)) (told : List (UInt64 × UInt64)) (next : Nat) :
    List (LogChunk ι β) :=
  ((List.range next).filter fun n => ¬ Gone told n).filterMap fun n => written[n]?

/-- The client has every chunk below the one it takes next, in order and as it was
written, but for those it was told are gone, and these are no longer retained. -/
structure Exact (s : Tail ι β) : Prop where
  lines : s.lines = received s.written s.told s.client.next.toNat
  gone : ∀ n, Gone s.told n → n < s.dropped ∧ n < s.client.next.toNat

/-- What a connection of the client holds that the server reads on from `k`. -/
structure Level (s : Tail ι β) (k : Nat) : Prop where
  refused : s.refused = []
  streams : Streams s.written s.dropped s.client.next.toNat s.transit k

/-- The chunk the client takes next is gone, and nothing on the connection is taken. -/
structure Behind (s : Tail ι β) (k : Nat) : Prop where
  gone : s.client.next.toNat < s.dropped
  past : s.client.next.toNat < k
  above : ∀ row ∈ s.transit, s.client.next.toNat < row.sequence.toNat
  refused : ∀ e ∈ s.refused, ∃ got, e = .outOfOrder s.client.next got

/-- The invariant of a job's log and its client. -/
structure Sound [DecidableEq ι] (jobId : ι) (s : Tail ι β) : Prop where
  fits : s.written.length ≤ 2 ^ 63
  numbered : Numbered jobId 0 s.written
  issuer : s.issuer.next.toNat = s.written.length
  dropped : s.dropped ≤ s.written.length
  rows : (s.chunks.filter fun c => c.jobId = jobId).Perm (s.written.drop s.dropped)
  client : s.client.next.toNat ≤ s.written.length
  exact : s.Exact
  connection : (s.after = none ∧ s.transit = [] ∧ s.refused = []) ∨
    ∃ k : Nat, s.after = some (k - 1 : Int) ∧ k ≤ s.written.length ∧ (s.Level k ∨ s.Behind k)

section Exact

variable {s s' : Tail ι β}

theorem received_succ {written : List (LogChunk ι β)} {told : List (UInt64 × UInt64)} {n : Nat}
    {row : LogChunk ι β} (hrow : written[n]? = some row) (hthere : ¬ Gone told n) :
    received written told (n + 1) = received written told n ++ [row] := by
  unfold received
  rw [List.range_succ, List.filter_append, List.filter_singleton, decide_eq_true hthere,
    cond_true, List.filterMap_append, List.filterMap_cons, hrow, List.filterMap_nil]

theorem gone_concat {told : List (UInt64 × UInt64)} {first last : UInt64} {n : Nat} :
    Gone (told ++ [(first, last)]) n ↔
      Gone told n ∨ (first.toNat ≤ n ∧ n < last.toNat) := by
  constructor
  · rintro ⟨range, hrange, hn⟩
    rcases List.mem_append.mp hrange with h | h
    · exact .inl ⟨range, h, hn⟩
    · rw [List.mem_singleton.mp h] at hn
      exact .inr hn
  · rintro (⟨range, hrange, hn⟩ | hn)
    · exact ⟨range, List.mem_append_left _ hrange, hn⟩
    · exact ⟨_, List.mem_append_right _ (List.mem_singleton_self _), hn⟩

/-- A range that begins at the next number says all there is to say about it. -/
theorem received_concat {written : List (LogChunk ι β)} {told : List (UInt64 × UInt64)}
    {first last : UInt64} (hle : first ≤ last) :
    received written (told ++ [(first, last)]) last.toNat =
      received written told first.toNat := by
  rw [UInt64.le_iff_toNat_le] at hle
  have hsplit : List.range last.toNat =
      List.range first.toNat ++ List.range' first.toNat (last.toNat - first.toNat) := by
    have hjoin := @List.range'_append_1 0 first.toNat (last.toNat - first.toNat)
    rw [Nat.zero_add, Nat.add_sub_cancel' hle] at hjoin
    rw [List.range_eq_range', List.range_eq_range', hjoin]
  have hbelow : (List.range first.toNat).filter (fun n => ¬ Gone (told ++ [(first, last)]) n) =
      (List.range first.toNat).filter fun n => ¬ Gone told n := by
    refine List.filter_congr fun n hn => ?_
    rw [List.mem_range] at hn
    rw [decide_eq_decide, gone_concat]
    exact not_congr ⟨fun h => h.resolve_right fun h => by omega, .inl⟩
  have habove : (List.range' first.toNat (last.toNat - first.toNat)).filter
      (fun n => ¬ Gone (told ++ [(first, last)]) n) = [] := by
    refine List.filter_eq_nil_iff.mpr fun n hn => ?_
    rw [List.mem_range'_1] at hn
    rw [decide_eq_true_eq, not_not, gone_concat]
    exact .inr (by omega)
  unfold received
  rw [hsplit, List.filter_append, hbelow, habove, List.append_nil]

theorem received_grow {written : List (LogChunk ι β)} (told : List (UInt64 × UInt64)) {n : Nat}
    (more : List (LogChunk ι β)) (hn : n ≤ written.length) :
    received (written ++ more) told n = received written told n := by
  unfold received
  refine List.filterMap_congr fun m hm => ?_
  have hlt := List.mem_range.mp (List.mem_of_mem_filter hm)
  exact List.getElem?_append_left (by omega)

theorem received_whole {written : List (LogChunk ι β)} {told : List (UInt64 × UInt64)}
    (hnone : ∀ n, ¬ Gone told n) (n : Nat) : received written told n = written.take n := by
  induction n with
  | zero => rfl
  | succ n ih =>
    rcases hrow : written[n]? with _ | row
    · rw [List.getElem?_eq_none_iff] at hrow
      rw [List.take_of_length_le (Nat.le_succ_of_le hrow), received, List.range_succ,
        List.filter_append, List.filter_singleton, decide_eq_true (hnone n), cond_true,
        List.filterMap_append, List.filterMap_cons, List.getElem?_eq_none hrow,
        List.filterMap_nil, List.append_nil]
      exact ih.trans (List.take_of_length_le hrow)
    · rw [received_succ hrow (hnone n), ih, List.take_add_one, hrow]
      rfl

/-- The next chunk is taken. -/
theorem Exact.accept (h : s.Exact) {row : LogChunk ι β} {next : UInt64}
    (hrow : s.written[s.client.next.toNat]? = some row)
    (hnext : next.toNat = s.client.next.toNat + 1) (hwritten : s'.written = s.written)
    (hdropped : s'.dropped = s.dropped) (htold : s'.told = s.told)
    (hclient : s'.client = ⟨next⟩) (hlines : s'.lines = s.lines ++ [row]) : s'.Exact where
  lines := by
    have hthere : ¬ Gone s.told s.client.next.toNat := fun hgone =>
      Nat.lt_irrefl _ (h.gone _ hgone).2
    rw [hlines, h.lines, hwritten, htold, hclient, hnext, received_succ hrow hthere]
  gone := by
    intro n hn
    rw [htold] at hn
    obtain ⟨hlt, hbelow⟩ := h.gone n hn
    rw [hdropped, hclient, hnext]
    exact ⟨hlt, by omega⟩

/-- The client is told from where it gets chunks again. -/
theorem Exact.tell (h : s.Exact) {start : UInt64} (hle : s.client.next.toNat ≤ start.toNat)
    (hgone : s.client.next.toNat < start.toNat → start.toNat ≤ s.dropped)
    (hwritten : s'.written = s.written) (hdropped : s'.dropped = s.dropped)
    (htold : s'.told = s.told ++ [(s.client.next, start)]) (hclient : s'.client = .awaiting start)
    (hlines : s'.lines = s.lines) : s'.Exact where
  lines := by
    rw [hlines, h.lines, hwritten, htold, hclient, Sequencer.awaiting_next,
      received_concat (UInt64.le_iff_toNat_le.mpr hle)]
  gone := by
    intro n hn
    rw [htold, gone_concat] at hn
    rw [hdropped, hclient, Sequencer.awaiting_next]
    rcases hn with hn | ⟨hfrom, hto⟩
    · obtain ⟨hlt, hbelow⟩ := h.gone n hn
      exact ⟨hlt, by omega⟩
    · have := hgone (by omega)
      exact ⟨by omega, hto⟩

theorem Exact.keep (h : s.Exact) (hwritten : s'.written = s.written)
    (hdropped : s.dropped ≤ s'.dropped) (htold : s'.told = s.told) (hclient : s'.client = s.client)
    (hlines : s'.lines = s.lines) : s'.Exact where
  lines := by rw [hlines, h.lines, hwritten, htold, hclient]
  gone := by
    intro n hn
    rw [htold] at hn
    obtain ⟨hlt, hbelow⟩ := h.gone n hn
    rw [hclient]
    exact ⟨by omega, hbelow⟩

end Exact

/-! ## The steps of a connection -/

section Follow

variable {s : Tail ι β}

theorem deliver_nil (h : s.transit = []) : s.deliver = s := by
  rw [deliver, h]

theorem deliver_accepted {row : LogChunk ι β} {rest : List (LogChunk ι β)}
    (h : s.transit = row :: rest) (hnext : row.sequence = s.client.next) :
    s.deliver = { s with
      transit := rest
      client := ⟨saturatingAdd s.client.next 1⟩
      lines := s.lines ++ [row] } := by
  rw [deliver, h]
  dsimp only
  rw [hnext, Sequencer.accept_wanted]

theorem deliver_refused {row : LogChunk ι β} {rest : List (LogChunk ι β)}
    (h : s.transit = row :: rest) (hother : row.sequence ≠ s.client.next) :
    s.deliver = { s with
      transit := rest
      refused := s.refused ++ [.outOfOrder s.client.next row.sequence] } := by
  rw [deliver, h]
  dsimp only
  rw [Sequencer.accept_other hother]

variable [DecidableEq ι] {jobId : ι}

theorem Sound.deliver (h : Sound jobId s) : Sound jobId s.deliver := by
  rcases htransit : s.transit with _ | ⟨row, rest⟩
  · rw [deliver_nil htransit]
    exact h
  · rcases h.connection with ⟨-, hnil, -⟩ | ⟨k, hafter, hk, hlevel | hbehind⟩
    · rw [hnil] at htransit
      cases htransit
    · have hstreams := hlevel.streams
      rw [htransit] at hstreams
      cases hstreams with
      | @row _ n _ _ _ hrow hle hskip hrest =>
        have hsequence := (h.numbered n row hrow).2
        have hlength := (List.getElem?_eq_some_iff.mp hrow).1
        have hfits := h.fits
        by_cases hnext : row.sequence = s.client.next
        · rw [deliver_accepted htransit hnext]
          have hn : n = s.client.next.toNat := by
            rw [← hnext]
            omega
          have hsucc : (saturatingAdd s.client.next 1).toNat = s.client.next.toNat + 1 :=
            saturatingAdd_one (by omega)
          rw [hn] at hrow hrest
          refine { h with
            client := by dsimp only; omega
            exact := h.exact.accept hrow hsucc rfl rfl rfl rfl rfl
            connection := .inr ⟨k, hafter, hk, .inl ⟨hlevel.refused, ?_⟩⟩ }
          dsimp only
          rw [hsucc]
          exact hrest
        · rw [deliver_refused htransit hnext]
          have hlt : s.client.next.toNat < n := by
            refine Nat.lt_of_le_of_ne hle fun heq => hnext (UInt64.toNat_inj.mp ?_)
            omega
          have hpast := hrest.le
          refine { h with
            exact := h.exact.keep rfl (Nat.le_refl _) rfl rfl rfl
            connection :=
              .inr ⟨k, hafter, hk, .inr ⟨?_, ?_, fun later hlater => ?_, fun e he => ?_⟩⟩ }
          · exact Nat.lt_of_lt_of_le hlt (hskip hlt)
          · dsimp only
            omega
          · have := hrest.above h.numbered later hlater
            dsimp only
            omega
          · dsimp only at he
            rw [hlevel.refused, List.nil_append, List.mem_singleton] at he
            exact ⟨_, he⟩
    · have habove := hbehind.above
      rw [htransit] at habove
      have hother : row.sequence ≠ s.client.next := by
        intro heq
        have := habove row List.mem_cons_self
        rw [heq] at this
        exact Nat.lt_irrefl _ this
      rw [deliver_refused htransit hother]
      refine { h with
        exact := h.exact.keep rfl (Nat.le_refl _) rfl rfl rfl
        connection := .inr ⟨k, hafter, hk, .inr { hbehind with
          above := fun later hlater => habove later (List.mem_cons_of_mem _ hlater)
          refused := fun e he => ?_ }⟩ }
      rcases List.mem_append.mp he with he | he
      · exact hbehind.refused e he
      · exact ⟨_, List.mem_singleton.mp he⟩

theorem Sound.page_rows (h : Sound jobId s) (k : Nat) (limit : UInt64) :
    logChunksAfter s.chunks jobId (k - 1) limit =
      (s.written.drop (max s.dropped k)).take (min limit.toNat (2 ^ 63 - 1)) := by
  have hskip : s.dropped + (k - (0 + s.dropped)) = max s.dropped k := by omega
  rw [logChunksAfter_eq h.rows (h.numbered.drop s.dropped), List.drop_drop, hskip]

theorem page_nil {k : Nat} {limit : UInt64} (hafter : s.after = some (k - 1 : Int))
    (h : logChunksAfter s.chunks jobId (k - 1) limit = []) : s.page jobId limit = s := by
  rw [Tail.page, hafter]
  dsimp only
  rw [h, List.append_nil, List.getLast?_nil, Option.map_none, Option.getD_none, ← hafter]

theorem page_sent {k : Nat} {limit : UInt64} {rows : List (LogChunk ι β)} {last : LogChunk ι β}
    (hafter : s.after = some (k - 1 : Int)) (h : logChunksAfter s.chunks jobId (k - 1) limit = rows)
    (hlast : rows.getLast? = some last) :
    s.page jobId limit = { s with
      after := some (last.sequence.toNat : Int)
      transit := s.transit ++ rows } := by
  rw [Tail.page, hafter]
  dsimp only
  rw [h, hlast, Option.map_some, Option.getD_some]

theorem Sound.page (h : Sound jobId s) (limit : UInt64) : Sound jobId (s.page jobId limit) := by
  rcases h.connection with ⟨hnone, -, -⟩ | ⟨k, hafter, hk, hconnection⟩
  · rw [Tail.page, hnone]
    exact h
  · have hrows := h.page_rows k limit
    by_cases hnil : logChunksAfter s.chunks jobId (k - 1) limit = []
    · rw [page_nil hafter hnil]
      exact h
    · have hdropped := h.dropped
      have hstreams := (streams_take s.dropped (min limit.toNat (2 ^ 63 - 1))
        (Nat.max_le.mpr ⟨hdropped, hk⟩)).skip rfl (hrows ▸ hnil)
      rw [← hrows] at hstreams
      obtain ⟨last, hlast, hstop⟩ := hstreams.last h.numbered hnil
      have hle := hstreams.le
      have hbound : last.sequence.toNat + 1 ≤ s.written.length := by omega
      have hafter' : some (last.sequence.toNat : Int) =
          some (((last.sequence.toNat + 1 : Nat) : Int) - 1) := by
        congr 1
        omega
      rw [page_sent hafter rfl hlast]
      refine { h with
        exact := h.exact.keep rfl (Nat.le_refl _) rfl rfl rfl
        connection := .inr ⟨last.sequence.toNat + 1, hafter', hbound, ?_⟩ }
      rcases hconnection with hlevel | hbehind
      · refine .inl ⟨hlevel.refused, hlevel.streams.append ?_⟩
        rw [hstop]
        exact hstreams
      · refine .inr { hbehind with
          past := by
            have := hbehind.past
            dsimp only
            omega
          above := fun row hrow => ?_ }
        rcases List.mem_append.mp hrow with hrow | hrow
        · exact hbehind.above row hrow
        · have := hstreams.above h.numbered row hrow
          have := hbehind.past
          dsimp only
          omega

theorem Sound.plan_cases (h : Sound jobId s) :
    (∃ start through, planFor s.chunks jobId s.client.lastSeen = .replay start through ∧
      s.client.next.toNat ≤ start.toNat ∧
        (s.client.next.toNat < start.toNat → start.toNat ≤ s.dropped) ∧
          start.toNat ≤ s.written.length ∧
            (s.dropped < s.written.length → s.dropped ≤ start.toNat)) ∨
    (planFor s.chunks jobId s.client.lastSeen = .upToDate ∧
      (s.dropped < s.written.length → s.client.next.toNat = s.written.length)) ∨
    (∃ earliest, planFor s.chunks jobId s.client.lastSeen = .windowLost earliest ∧
      s.client.next.toNat < earliest.toNat ∧ earliest.toNat = s.dropped) := by
  have hcases := planFor_cases h.rows (h.numbered.drop s.dropped)
  rw [List.length_drop, Nat.zero_add, Nat.add_sub_cancel' h.dropped, Ne, List.drop_eq_nil_iff,
    Nat.not_le] at hcases
  exact hcases h.fits s.client h.client

/-- A connection tells the client where it goes on, and is level with it there. -/
theorem Sound.connect (h : Sound jobId s) : Sound jobId (s.connect jobId) := by
  have hdropped := h.dropped
  rcases h.plan_cases with
    ⟨start, through, hplan, hle, hgone, hstart, -⟩ | ⟨hplan, -⟩ | ⟨earliest, hplan, hlt, hfirst⟩
  · rw [Tail.connect, hplan]
    refine { h with
      client := by dsimp only; rwa [Sequencer.awaiting_next]
      exact := h.exact.tell hle hgone rfl rfl rfl rfl rfl
      connection := .inr ⟨start.toNat, rfl, hstart, .inl ⟨rfl, ?_⟩⟩ }
    dsimp only
    rw [Sequencer.awaiting_next]
    exact .nil _
  · rw [Tail.connect, hplan]
    exact { h with
      exact := h.exact.keep rfl (Nat.le_refl _) rfl rfl rfl
      connection := .inr ⟨s.client.next.toNat, rfl, h.client, .inl ⟨rfl, .nil _⟩⟩ }
  · rw [Tail.connect, hplan]
    exact { h with
      client := by
        dsimp only
        rw [Sequencer.awaiting_next]
        omega
      exact := h.exact.tell (by omega) (fun _ => by omega) rfl rfl rfl rfl rfl
      connection := .inl ⟨rfl, rfl, rfl⟩ }

theorem Sound.follow {s' : Tail ι β} (h : Sound jobId s) (hstep : Follow jobId s s') :
    Sound jobId s' := by
  cases hstep with
  | connect => exact h.connect
  | page limit => exact h.page limit
  | deliver => exact h.deliver

end Follow

/-! ## Runs -/

section Runs

variable [DecidableEq ι] {jobId : ι} {s s' : Tail ι β}

theorem sound_start : Sound jobId (start : Tail ι β) where
  fits := Nat.zero_le _
  numbered := fun i row hrow => by cases hrow
  issuer := rfl
  dropped := Nat.le_refl 0
  rows := List.Perm.refl []
  client := Nat.le_refl 0
  exact := ⟨rfl, fun n hn => by
    obtain ⟨range, hrange, -⟩ := hn
    cases hrange⟩
  connection := .inl ⟨rfl, rfl, rfl⟩

theorem Sound.write (h : Sound jobId s) (rest : β) {chunks : List (LogChunk ι β)}
    (hfits : s.written.length < 2 ^ 63)
    (hchunks : chunks.Perm (⟨jobId, s.issuer.issue.1, rest⟩ :: s.chunks)) :
    Sound jobId { s with
      chunks := chunks
      issuer := s.issuer.issue.2
      written := s.written ++ [⟨jobId, s.issuer.issue.1, rest⟩] } := by
  have hlength : ∀ row, (s.written ++ [row]).length = s.written.length + 1 := fun row => by
    rw [List.length_append, List.length_singleton]
  have hgrows : ∀ row m, m ≤ s.written.length → m ≤ (s.written ++ [row]).length :=
    fun row m hm => hlength row ▸ Nat.le_succ_of_le hm
  have hissuer := h.issuer
  refine
    { fits := ?_, numbered := ?_, issuer := ?_, dropped := ?_, rows := ?_, client := ?_,
      exact := ?_, connection := ?_ }
  · rw [hlength]
    omega
  · refine h.numbered.concat rfl ?_
    rw [Nat.zero_add]
    exact hissuer
  · rw [hlength, ← hissuer]
    exact saturatingAdd_one (by omega)
  · exact hgrows _ _ h.dropped
  · have hperm := hchunks.filter fun c => c.jobId = jobId
    rw [List.filter_cons, if_pos (decide_eq_true rfl)] at hperm
    rw [List.drop_append_of_le_length h.dropped]
    refine hperm.trans ((h.rows.cons _).trans ?_)
    exact (List.perm_append_singleton _ _).symm
  · exact hgrows _ _ h.client
  · exact
      { lines := h.exact.lines.trans (received_grow _ _ h.client).symm
        gone := h.exact.gone }
  · rcases h.connection with hnone | ⟨k, hafter, hk, hlevel | hbehind⟩
    · exact .inl hnone
    · refine .inr ⟨k, hafter, hgrows _ _ hk, .inl ⟨hlevel.refused, ?_⟩⟩
      exact hlevel.streams.grow _ (Nat.le_refl _)
    · exact .inr ⟨k, hafter, hgrows _ _ hk, .inr { hbehind with }⟩

theorem Sound.drop (h : Sound jobId s) {k : Nat} {chunks : List (LogChunk ι β)}
    (hk : k ≤ s.written.length) (hchunks : chunks.Perm
      (s.chunks.filter fun c => ¬ (c.jobId = jobId ∧ c.sequence.toNat < k))) :
    Sound jobId { s with chunks := chunks, dropped := max s.dropped k } := by
  have hle : s.dropped ≤ max s.dropped k := Nat.le_max_left _ _
  refine { h with
    dropped := Nat.max_le.mpr ⟨h.dropped, hk⟩
    rows := ?_
    exact := h.exact.keep rfl hle rfl rfl rfl
    connection := ?_ }
  · have hkept := h.rows.filter fun c => (c.sequence.toNat : Int) > (k : Int) - 1
    have hskip : s.dropped + (k - (0 + s.dropped)) = max s.dropped k := by omega
    rw [(h.numbered.drop s.dropped).filter k, List.drop_drop, hskip, List.filter_filter] at hkept
    refine (hchunks.filter _).trans (List.Perm.trans (List.Perm.of_eq ?_) hkept)
    rw [List.filter_filter]
    refine List.filter_congr fun c _ => ?_
    rw [← Bool.decide_and, ← Bool.decide_and, decide_eq_decide]
    exact ⟨fun ⟨hjob, hnot⟩ => ⟨by have := mt (And.intro hjob) hnot; omega, hjob⟩,
      fun ⟨hin, hjob⟩ => ⟨hjob, fun hout => by have := hout.2; omega⟩⟩
  · rcases h.connection with hnone | ⟨n, hafter, hn, hlevel | hbehind⟩
    · exact .inl hnone
    · refine .inr ⟨n, hafter, hn, .inl ⟨hlevel.refused, ?_⟩⟩
      have hgrown := hlevel.streams.grow [] hle
      rwa [List.append_nil] at hgrown
    · exact .inr ⟨n, hafter, hn, .inr { hbehind with gone := Nat.lt_of_lt_of_le hbehind.gone hle }⟩

theorem Sound.elsewhere (h : Sound jobId s) {chunks : List (LogChunk ι β)}
    (hchunks : (chunks.filter fun c => c.jobId = jobId).Perm
      (s.chunks.filter fun c => c.jobId = jobId)) : Sound jobId { s with chunks := chunks } :=
  { h with
    rows := hchunks.trans h.rows
    exact := h.exact.keep rfl (Nat.le_refl _) rfl rfl rfl
    connection := by
      rcases h.connection with hnone | ⟨n, hafter, hn, hlevel | hbehind⟩
      · exact .inl hnone
      · exact .inr ⟨n, hafter, hn, .inl { hlevel with }⟩
      · exact .inr ⟨n, hafter, hn, .inr { hbehind with }⟩ }

theorem Sound.step (h : Sound jobId s) (hstep : Step jobId s s') : Sound jobId s' := by
  cases hstep with
  | write rest chunks hfits hchunks => exact h.write rest hfits hchunks
  | drop k chunks hk hchunks => exact h.drop hk hchunks
  | elsewhere chunks hchunks => exact h.elsewhere hchunks
  | follow hfollow => exact h.follow hfollow

theorem sound_of_run (hrun : Relation.ReflTransGen (Step jobId) start s) : Sound jobId s := by
  induction hrun with
  | refl => exact sound_start
  | tail _ hstep ih => exact ih.step hstep

end Runs

/-! ## Catching up -/

section CatchesUp

variable [DecidableEq ι] {jobId : ι} {s : Tail ι β}

/-- A connection on which nothing is under way and whose next chunk is retained, or yet
to be written. -/
structure Ready (jobId : ι) (s : Tail ι β) : Prop extends Sound jobId s where
  after : s.after = some (s.client.next.toNat - 1 : Int)
  transit : s.transit = []
  retained : s.dropped ≤ s.client.next.toNat

/-- What was written and dropped, and how far the client is. -/
def progress (s : Tail ι β) : List (LogChunk ι β) × Nat × Nat :=
  (s.written, s.dropped, s.client.next.toNat)

theorem Ready.advance (h : Ready jobId s) (hlt : s.client.next.toNat < s.written.length) :
    ∃ s', Relation.ReflTransGen (Follow jobId) s s' ∧ Ready jobId s' ∧
      s'.progress = (s.written, s.dropped, s.client.next.toNat + 1) := by
  have hrows := h.page_rows s.client.next.toNat 1
  have hone : min (1 : UInt64).toNat (2 ^ 63 - 1) = 1 := by decide
  rw [Nat.max_eq_right h.retained, hone, List.drop_eq_getElem_cons hlt, List.take_succ_cons,
    List.take_zero] at hrows
  have hsent := page_sent h.after hrows (List.getLast?_singleton ..)
  rw [h.transit, List.nil_append] at hsent
  have hsequence := (h.numbered _ _ (List.getElem?_eq_getElem hlt)).2
  have hnext : s.written[s.client.next.toNat].sequence = s.client.next :=
    UInt64.toNat_inj.mp (by omega)
  have hfits := h.fits
  have hretained := h.retained
  have hsucc : (saturatingAdd s.client.next 1).toNat = s.client.next.toNat + 1 :=
    saturatingAdd_one (by omega)
  have hclient : (s.page jobId 1).client = s.client := by rw [hsent]
  have htransit : (s.page jobId 1).transit = [s.written[s.client.next.toNat]] := by rw [hsent]
  have hdeliver := deliver_accepted htransit (by rw [hclient, hnext])
  have hpage : Follow jobId s (s.page jobId 1) := .page s 1
  refine ⟨_, (Relation.ReflTransGen.single hpage).tail (.deliver _),
    { (h.toSound.page 1).deliver with after := ?_, transit := ?_, retained := ?_ }, ?_⟩
  · rw [hdeliver]
    dsimp only
    rw [hclient, hsucc, hsent, hnext]
    dsimp only
    congr 1
    omega
  · rw [hdeliver]
  · rw [hdeliver]
    dsimp only
    rw [hclient, hsucc, hsent]
    exact Nat.le_succ_of_le hretained
  · rw [hdeliver, progress]
    dsimp only
    rw [hclient, hsucc, hsent]

theorem Ready.catch_up (h : Ready jobId s) :
    ∃ s', Relation.ReflTransGen (Follow jobId) s s' ∧
      s'.progress = (s.written, s.dropped, s.written.length) := by
  generalize hn : s.written.length - s.client.next.toNat = n
  have hle := h.client
  induction n generalizing s with
  | zero =>
    have hlevel : s.client.next.toNat = s.written.length := by omega
    exact ⟨s, .refl, by rw [progress, hlevel]⟩
  | succ n ih =>
    obtain ⟨mid, hsteps, hmid, hprogress⟩ := h.advance (by omega)
    have hwritten : mid.written = s.written := congrArg Prod.fst hprogress
    have hdropped : mid.dropped = s.dropped := congrArg (fun p => p.2.1) hprogress
    have hnext : mid.client.next.toNat = s.client.next.toNat + 1 :=
      congrArg (fun p => p.2.2) hprogress
    obtain ⟨s', hrest, heq⟩ := ih hmid (by rw [hwritten, hnext]; omega) hmid.client
    exact ⟨s', hsteps.trans hrest, by rw [heq, hwritten, hdropped]⟩

/-- After a connection to a log that is not empty the client is ready, or was told where
to subscribe again. -/
theorem Sound.connect_cases (h : Sound jobId s) (hlt : s.dropped < s.written.length) :
    (Ready jobId (s.connect jobId) ∧ (s.connect jobId).written = s.written) ∨
      (s.client.next.toNat < s.dropped ∧
        (s.connect jobId).progress = (s.written, s.dropped, s.dropped)) := by
  have hsound := h.connect
  rcases h.plan_cases with
    ⟨start, through, hplan, -, -, -, hstart⟩ | ⟨hplan, hlevel⟩ | ⟨earliest, hplan, hbefore, hfirst⟩
  · rw [Tail.connect, hplan] at hsound ⊢
    refine .inl ⟨{ hsound with after := ?_, transit := rfl, retained := ?_ }, rfl⟩
    · dsimp only
      rw [Sequencer.awaiting_next]
    · dsimp only
      rw [Sequencer.awaiting_next]
      exact hstart hlt
  · rw [Tail.connect, hplan] at hsound ⊢
    refine .inl ⟨{ hsound with after := rfl, transit := rfl, retained := ?_ }, rfl⟩
    dsimp only
    rw [hlevel hlt]
    exact h.dropped
  · refine .inr ⟨by omega, ?_⟩
    rw [Tail.connect, hplan, progress]
    dsimp only
    rw [Sequencer.awaiting_next, hfirst]

theorem Sound.catch_up (h : Sound jobId s) (hlt : s.dropped < s.written.length) :
    ∃ s', Relation.ReflTransGen (Follow jobId) s s' ∧ s'.written = s.written ∧
      s'.client.next.toNat = s.written.length := by
  have hconnect : Follow jobId s (s.connect jobId) := .connect s
  rcases h.connect_cases hlt with ⟨hready, hwritten⟩ | ⟨-, hlost⟩
  · obtain ⟨s', hsteps, heq⟩ := hready.catch_up
    rw [hwritten] at heq
    exact ⟨s', .head hconnect hsteps, congrArg Prod.fst heq, congrArg (fun p => p.2.2) heq⟩
  · have hwritten : (s.connect jobId).written = s.written := congrArg Prod.fst hlost
    have hdropped : (s.connect jobId).dropped = s.dropped := congrArg (fun p => p.2.1) hlost
    have hnext : (s.connect jobId).client.next.toNat = s.dropped :=
      congrArg (fun p => p.2.2) hlost
    have hagain : Follow jobId (s.connect jobId) ((s.connect jobId).connect jobId) := .connect _
    rcases h.connect.connect_cases (by rw [hdropped, hwritten]; exact hlt) with
      ⟨hready, hwritten'⟩ | ⟨hbefore, -⟩
    · obtain ⟨s', hsteps, heq⟩ := hready.catch_up
      rw [hwritten', hwritten] at heq
      exact ⟨s', .head hconnect (.head hagain hsteps), congrArg Prod.fst heq,
        congrArg (fun p => p.2.2) heq⟩
    · omega

end CatchesUp

/-- However a client follows a job's log, while chunks are written and dropped, rows are
stored in any order and connections drop anywhere.  It has every chunk below the one it
takes next once, in order and as it was written, but for those it was told are gone, and
these are no longer retained; where none was dropped it has the front of the log.  It
refuses a frame only where the chunk it takes next is no longer retained.  And as long as
a chunk is retained it can catch up from wherever it is. -/
theorem tail_exact [DecidableEq ι] (jobId : ι) (s : Tail ι β)
    (hrun : Relation.ReflTransGen (Step jobId) start s) :
    s.lines = received s.written s.told s.client.next.toNat ∧
      (∀ n, Gone s.told n → n < s.dropped) ∧
      (s.dropped = 0 → s.refused = [] ∧ s.lines = s.written.take s.client.next.toNat) ∧
      (∀ e ∈ s.refused, s.client.next.toNat < s.dropped ∧
        ∃ got, e = .outOfOrder s.client.next got) ∧
      (s.dropped < s.written.length → ∃ s', Relation.ReflTransGen (Follow jobId) s s' ∧
        s'.written = s.written ∧ s'.client.next.toNat = s.written.length) := by
  have h := sound_of_run hrun
  have hrefused : ∀ e ∈ s.refused, s.client.next.toNat < s.dropped ∧
      ∃ got, e = .outOfOrder s.client.next got := by
    intro e he
    rcases h.connection with ⟨-, -, hnone⟩ | ⟨k, -, -, hlevel | hbehind⟩
    · rw [hnone] at he
      cases he
    · rw [hlevel.refused] at he
      cases he
    · exact ⟨hbehind.gone, hbehind.refused e he⟩
  refine ⟨h.exact.lines, fun n hn => (h.exact.gone n hn).1, fun hzero => ⟨?_, ?_⟩, hrefused,
    h.catch_up⟩
  · refine List.eq_nil_iff_forall_not_mem.mpr fun e he => ?_
    have := (hrefused e he).1
    omega
  · rw [h.exact.lines]
    refine received_whole (fun n hn => ?_) _
    have := (h.exact.gone n hn).1
    omega

/-- A client of a job whose first chunk was dropped before it connected. -/
theorem tail_exact_first_dropped :
    ∃ s s' : Tail Nat Unit, Relation.ReflTransGen (Step 7) start s ∧ s.told = [(0, 1)] ∧
      Relation.ReflTransGen (Follow 7) s s' ∧ s'.client.next.toNat = 2 := by
  have hrun : Relation.ReflTransGen (Step 7) (start : Tail Nat Unit) _ :=
    .tail (.tail (.tail (.tail .refl
      (.write _ () [⟨7, 0, ()⟩] (by decide) (List.Perm.refl _)))
      (.write _ () [⟨7, 1, ()⟩, ⟨7, 0, ()⟩] (by decide) (List.Perm.refl _)))
      (.drop _ 1 [⟨7, 1, ()⟩] (by decide) (List.Perm.refl _)))
      (.follow (.connect _))
  obtain ⟨s', hsteps, -, hnext⟩ := (tail_exact 7 _ hrun).2.2.2.2 (by decide)
  exact ⟨_, s', hrun, by decide, hsteps, hnext⟩

end Tail
end Query
end IndieWorker
