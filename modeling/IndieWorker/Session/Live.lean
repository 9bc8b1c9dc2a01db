import IndieWorker.Session.Cursor
import IndieWorker.Session.FlowControl
import IndieWorker.Session.Oversize

/-!
# A live stream

One stream of a session over TCP.  The server numbers the lines of a log, writes them
as credit allows and says where it jumps when its buffer has wrapped.  The bytes arrive
in any pieces, and the client hands what its decoder finds to its cursor.  The
connection may drop anywhere, and the client then subscribes again from the cursor.
-/

namespace IndieWorker
namespace Session

/-- A jump the client was told of: from the last event it had to the last one it will
not see, and the gap the cursor answered. -/
structure Jump where
  start : Sequence
  stop : Sequence
  gap : UInt64

/-- The events a jump passes over. -/
def Jump.Misses (j : Jump) (n : Nat) : Prop := j.start.toNat < n ∧ n ≤ j.stop.toNat

/-- Both ends of a stream and what is between them. -/
structure Live where
  /-- The lines of the stream.  The first is event `1`. -/
  log : List Bytes
  /-- How many of them the server's buffer has wrapped over. -/
  evicted : Nat
  /-- The last event written to the connection or jumped over on it. -/
  sent : Nat
  flow : FlowControl
  /-- The bytes the client has not read. -/
  transit : Bytes
  decoder : FrameDecoder
  cursor : Cursor
  lines : List (Sequence × Bytes)
  jumps : List Jump
  refused : List Sequence
  errors : List CodecError

inductive Action where
  | produce (line : Bytes)
  | evict
  | send
  | grant (additional : UInt32)
  | arrive (count : Nat)
  | receive
  | reconnect (credit : UInt32)

namespace Live

/-- A subscription to a stream that has no lines yet. -/
def start (credit maxCredit : UInt32) : Live where
  log := []
  evicted := 0
  sent := 0
  flow := .new credit maxCredit
  transit := []
  decoder := .new
  cursor := .start
  lines := []
  jumps := []
  refused := []
  errors := []

variable (b : Build) (stream : Stream) (maxCredit : UInt32)

/-- A line the server takes: it has a sequence, and its event is no larger than a frame
may be. -/
def Takes (s : Live) (line : Bytes) : Prop :=
  s.log.length + 1 < 2 ^ 64 ∧ (Frame.event stream 0 line).encode.length ≤ MAX_FRAME_BYTES

instance decidableTakes (s : Live) (line : Bytes) : Decidable (Takes stream s line) :=
  inferInstanceAs (Decidable (_ ∧ _))

/-- The server writes a frame to the connection. -/
def write (s : Live) (frame : Frame) (upTo : Nat) : Live :=
  { s with sent := upTo, transit := s.transit ++ frame.encodeFramed }

/-- What the client does with a frame. -/
def hear (s : Live) : Frame → Option Live
  | .event _ sequence payload =>
    (s.cursor.accept b sequence).map fun
      | (cursor, .ok ()) => { s with cursor := cursor, lines := s.lines ++ [(sequence, payload)] }
      | (cursor, .error _) => { s with cursor := cursor, refused := s.refused ++ [sequence] }
  | .lagged _ skippedTo =>
    (s.cursor.jump b skippedTo).map fun p =>
      { s with cursor := p.1, jumps := s.jumps ++ [⟨s.cursor.delivered, skippedTo, p.2⟩] }
  | _ => some s

/-- One action of either end or of the network.  An end that may not do what is asked
does nothing. -/
def step (s : Live) : Action → Option Live
  | .produce line => some (if Takes stream s line then { s with log := s.log ++ [line] } else s)
  | .evict => some (if s.evicted < s.log.length then { s with evicted := s.evicted + 1 } else s)
  | .send =>
    if s.sent < s.evicted then
      some (s.write (.lagged stream (UInt64.ofNat s.evicted)) s.evicted)
    else
      match s.log[s.sent]? with
      | none => some s
      | some line =>
        if s.flow.consume.2 then
          some ({ s with flow := s.flow.consume.1 }.write
            (.event stream (UInt64.ofNat (s.sent + 1)) line) (s.sent + 1))
        else some s
  | .grant additional => (s.flow.grant b additional).map fun p => { s with flow := p.1 }
  | .arrive count =>
    some { s with
      decoder := s.decoder.feed (s.transit.take count)
      transit := s.transit.drop count }
  | .receive =>
    match s.decoder.nextFrame with
    | (.ok (some frame), decoder) => hear b { s with decoder := decoder } frame
    | (.ok none, _) => some s
    | (.error e, _) => some { s with errors := s.errors ++ [e] }
  | .reconnect credit =>
    some { s with
      transit := []
      decoder := .new
      sent := s.cursor.delivered.toNat
      flow := .new credit maxCredit }

/-- A run of a stream.  It does not return where the cursor overflows. -/
def run (s : Live) (actions : List Action) : Option Live :=
  actions.foldlM (step b stream maxCredit) s

/-! ## What a connection holds -/

/-- The frames between the ends of a connection lead the client from one sequence to
another. -/
inductive Leads (log : List Bytes) : Nat → List Frame → Nat → Prop where
  | nil (d : Nat) : Leads log d [] d
  | event {d e : Nat} {line : Bytes} {frames : List Frame} (hline : log[d]? = some line)
      (rest : Leads log (d + 1) frames e) :
      Leads log d (.event stream (UInt64.ofNat (d + 1)) line :: frames) e
  | lagged {d k e : Nat} {frames : List Frame} (hlt : d < k) (hle : k ≤ log.length)
      (rest : Leads log k frames e) :
      Leads log d (.lagged stream (UInt64.ofNat k) :: frames) e

section Leads

variable {log : List Bytes} {frames : List Frame} {d e : Nat}

theorem Leads.le (h : Leads stream log d frames e) : d ≤ e := by
  induction h with
  | nil d => exact Nat.le_refl d
  | event hline rest ih => omega
  | lagged hlt hle rest ih => omega

theorem Leads.append {mid : Nat} {later : List Frame}
    (h : Leads stream log d frames mid)
    (h' : Leads stream log mid later e) :
    Leads stream log d (frames ++ later) e := by
  induction h with
  | nil d => exact h'
  | event hline rest ih => exact .event hline (ih h')
  | lagged hlt hle rest ih => exact .lagged hlt hle (ih h')

theorem Leads.eq (h : Leads stream log d [] e) : d = e := by
  cases h
  rfl

/-- A longer log changes no line that was written. -/
theorem Leads.grow (h : Leads stream log d frames e) (line : Bytes) :
    Leads stream (log ++ [line]) d frames e := by
  induction h with
  | nil d => exact .nil d
  | event hline rest ih =>
    refine .event ?_ ih
    rw [List.getElem?_append_left (List.getElem?_eq_some_iff.mp hline).1]
    exact hline
  | lagged hlt hle rest ih =>
    refine .lagged hlt ?_ ih
    rw [List.length_append]
    omega

/-- A jump is no larger than an event, whatever its line. -/
theorem encode_lagged_le (k : Sequence) (line : Bytes) :
    (Frame.lagged stream k).encode.length ≤ (Frame.event stream 0 line).encode.length := by
  rw [Frame.encode_length, Frame.encode_length]
  exact Nat.le_add_right _ _

theorem encode_event_eq (k : Sequence) (line : Bytes) :
    (Frame.event stream k line).encode.length = (Frame.event stream 0 line).encode.length := by
  rw [Frame.encode_length, Frame.encode_length]
  rfl

theorem Leads.fits (h : Leads stream log d frames e)
    (hlog : ∀ line ∈ log, (Frame.event stream 0 line).encode.length ≤ MAX_FRAME_BYTES) :
    ∀ f ∈ frames, f.encode.length ≤ MAX_FRAME_BYTES := by
  induction h with
  | nil d => exact List.forall_mem_nil _
  | event hline rest ih =>
    refine List.forall_mem_cons.mpr ⟨?_, ih⟩
    rw [encode_event_eq]
    exact hlog _ (List.mem_of_getElem? hline)
  | lagged hlt hle rest ih =>
    refine List.forall_mem_cons.mpr ⟨?_, ih⟩
    have hpos : 0 < log.length := by omega
    exact Nat.le_trans (encode_lagged_le stream _ _) (hlog _ (List.getElem_mem hpos))

end Leads

/-! ## What the client has -/

/-- The client has every line up to its cursor once and in order, but for those a jump
told it of.  The gap of a jump counts one line less than the jump misses. -/
structure Exact (log : List Bytes) (cursor : Cursor) (lines : List (Sequence × Bytes))
    (jumps : List Jump) : Prop where
  increasing : lines.Pairwise fun l l' => l.1 < l'.1
  had : ∀ l ∈ lines, 0 < l.1.toNat ∧ l.1 ≤ cursor.delivered ∧ log[l.1.toNat - 1]? = some l.2
  told : ∀ j ∈ jumps, j.stop ≤ cursor.delivered ∧
    j.stop.toNat = j.start.toNat + (j.gap.toNat + 1)
  covered : ∀ n, 0 < n → n ≤ cursor.delivered.toNat →
    (∃ l ∈ lines, l.1.toNat = n) ∨ ∃ j ∈ jumps, j.Misses n
  apart : ∀ l ∈ lines, ∀ j ∈ jumps, ¬ j.Misses l.1.toNat
  count : lines.length + (jumps.map fun j => j.gap.toNat + 1).sum = cursor.delivered.toNat
  whole : jumps = [] → lines.map Prod.snd = log.take cursor.delivered.toNat

/-- What every run keeps. -/
structure Sound (s : Live) : Prop where
  short : s.log.length < 2 ^ 64
  fits : ∀ line ∈ s.log, (Frame.event stream 0 line).encode.length ≤ MAX_FRAME_BYTES
  evicted : s.evicted ≤ s.log.length
  sent : s.sent ≤ s.log.length
  wire : ∃ frames, s.decoder.buffer ++ s.transit = (frames.map Frame.encodeFramed).flatten ∧
    Leads stream s.log s.cursor.delivered.toNat frames s.sent
  exact : Exact s.log s.cursor s.lines s.jumps
  refused : s.refused = []
  errors : s.errors = []

section Exact

variable {log : List Bytes} {cursor : Cursor} {lines : List (Sequence × Bytes)}
  {jumps : List Jump}

theorem Exact.of_event {line : Bytes} (h : Exact log cursor lines jumps) {n : Sequence}
    (hn : n.toNat = cursor.delivered.toNat + 1)
    (hline : log[cursor.delivered.toNat]? = some line) :
    Exact log ⟨n⟩ (lines ++ [(n, line)]) jumps where
  increasing := by
    refine List.pairwise_append.mpr ⟨h.increasing, List.pairwise_singleton _ _, ?_⟩
    intro l hl l' hl'
    rw [List.mem_singleton.mp hl', UInt64.lt_iff_toNat_lt, hn]
    have := UInt64.le_iff_toNat_le.mp (h.had l hl).2.1
    omega
  had := by
    intro l hl
    rcases List.mem_append.mp hl with hl | hl
    · obtain ⟨hpos, hle, heq⟩ := h.had l hl
      rw [UInt64.le_iff_toNat_le] at hle
      exact ⟨hpos, UInt64.le_iff_toNat_le.mpr (by dsimp only; omega), heq⟩
    · rw [List.mem_singleton.mp hl]
      refine ⟨by dsimp only; omega, UInt64.le_refl _, ?_⟩
      dsimp only
      rw [hn, Nat.add_sub_cancel]
      exact hline
  told := by
    intro j hj
    obtain ⟨hle, hgap⟩ := h.told j hj
    rw [UInt64.le_iff_toNat_le] at hle
    exact ⟨UInt64.le_iff_toNat_le.mpr (by dsimp only; omega), hgap⟩
  covered := by
    intro m hpos hle
    dsimp only at hle
    rcases Nat.lt_or_ge cursor.delivered.toNat m with hlt | hle'
    · exact .inl ⟨(n, line), List.mem_append_right _ (List.mem_singleton_self _), by
        dsimp only
        omega⟩
    · rcases h.covered m hpos hle' with ⟨l, hl, hlm⟩ | hj
      · exact .inl ⟨l, List.mem_append_left _ hl, hlm⟩
      · exact .inr hj
  apart := by
    intro l hl j hj hmiss
    rcases List.mem_append.mp hl with hl | hl
    · exact h.apart l hl j hj hmiss
    · rw [List.mem_singleton.mp hl] at hmiss
      have hle := UInt64.le_iff_toNat_le.mp (h.told j hj).1
      have hup := hmiss.2
      dsimp only at hup
      omega
  count := by
    have hcount := h.count
    rw [List.length_append, List.length_singleton]
    dsimp only
    omega
  whole := by
    intro hnone
    rw [List.map_append, h.whole hnone]
    dsimp only [List.map_cons, List.map_nil]
    rw [hn, List.take_add_one, hline]
    rfl

theorem Exact.of_lagged (h : Exact log cursor lines jumps) {k : Sequence} {gap : UInt64}
    (hlt : cursor.delivered < k) (hgap : k.toNat = cursor.delivered.toNat + (gap.toNat + 1)) :
    Exact log ⟨k⟩ lines (jumps ++ [⟨cursor.delivered, k, gap⟩]) where
  increasing := h.increasing
  had := fun l hl =>
    ⟨(h.had l hl).1, UInt64.le_trans (h.had l hl).2.1 (UInt64.le_of_lt hlt), (h.had l hl).2.2⟩
  told := by
    intro j hj
    rcases List.mem_append.mp hj with hj | hj
    · exact ⟨UInt64.le_trans (h.told j hj).1 (UInt64.le_of_lt hlt), (h.told j hj).2⟩
    · rw [List.mem_singleton.mp hj]
      exact ⟨UInt64.le_refl _, hgap⟩
  covered := by
    intro m hpos hle
    rcases Nat.lt_or_ge cursor.delivered.toNat m with hlt' | hle'
    · exact .inr ⟨_, List.mem_append_right _ (List.mem_singleton_self _), hlt', hle⟩
    · rcases h.covered m hpos hle' with hl | ⟨j, hj, hmiss⟩
      · exact .inl hl
      · exact .inr ⟨j, List.mem_append_left _ hj, hmiss⟩
  apart := by
    intro l hl j hj hmiss
    rcases List.mem_append.mp hj with hj | hj
    · exact h.apart l hl j hj hmiss
    · rw [List.mem_singleton.mp hj] at hmiss
      have hle := UInt64.le_iff_toNat_le.mp (h.had l hl).2.1
      have hlow := hmiss.1
      dsimp only at hlow
      omega
  count := by
    have hcount := h.count
    rw [List.map_append, List.sum_append, List.map_singleton, List.sum_singleton]
    dsimp only
    omega
  whole := fun hnone => absurd hnone (List.append_ne_nil_of_right_ne_nil _ (List.cons_ne_nil _ _))

theorem Exact.grow (h : Exact log cursor lines jumps) (line : Bytes) :
    Exact (log ++ [line]) cursor lines jumps where
  increasing := h.increasing
  had := by
    intro l hl
    obtain ⟨hpos, hle, heq⟩ := h.had l hl
    refine ⟨hpos, hle, ?_⟩
    rw [List.getElem?_append_left (List.getElem?_eq_some_iff.mp heq).1]
    exact heq
  told := h.told
  covered := h.covered
  apart := h.apart
  count := h.count
  whole := by
    intro hnone
    have hwhole := congrArg List.length (h.whole hnone)
    have hcount := h.count
    rw [List.length_map, List.length_take] at hwhole
    rw [hnone, List.map_nil, List.sum_nil] at hcount
    rw [List.take_append_of_le_length (by omega)]
    exact h.whole hnone

end Exact

/-! ## One frame -/

variable {b stream maxCredit}

theorem hear_event {s : Live} {line : Bytes} (h : Exact s.log s.cursor s.lines s.jumps)
    (hshort : s.cursor.delivered.toNat + 1 < 2 ^ 64)
    (hline : s.log[s.cursor.delivered.toNat]? = some line) :
    ∃ s', hear b s (.event stream (UInt64.ofNat (s.cursor.delivered.toNat + 1)) line) = some s' ∧
      Exact s.log s'.cursor s'.lines s.jumps ∧
        s'.cursor.delivered.toNat = s.cursor.delivered.toNat + 1 ∧
        s' = { s with cursor := s'.cursor, lines := s'.lines } := by
  have hn : (UInt64.ofNat (s.cursor.delivered.toNat + 1)).toNat = s.cursor.delivered.toNat + 1 :=
    UInt64.toNat_ofNat_of_lt' hshort
  have hadd : b.add s.cursor.delivered 1 = some (UInt64.ofNat (s.cursor.delivered.toNat + 1)) := by
    rw [b.add_of_lt hshort]
    exact congrArg some (UInt64.toNat_inj.mp (by rw [hn, toNat_add_one hshort]))
  refine ⟨{ s with
    cursor := ⟨UInt64.ofNat (s.cursor.delivered.toNat + 1)⟩
    lines := s.lines ++ [(UInt64.ofNat (s.cursor.delivered.toNat + 1), line)] }, ?_,
    h.of_event hn hline, hn, rfl⟩
  simp only [hear, Cursor.accept, hadd, Option.bind_eq_bind, Option.bind_some, if_true]
  rfl

theorem hear_lagged {s : Live} {k : Nat} (h : Exact s.log s.cursor s.lines s.jumps)
    (hk : k < 2 ^ 64) (hlt : s.cursor.delivered.toNat < k) :
    ∃ s', hear b s (.lagged stream (UInt64.ofNat k)) = some s' ∧
      Exact s.log s'.cursor s.lines s'.jumps ∧ s'.cursor.delivered.toNat = k ∧
        s' = { s with cursor := s'.cursor, jumps := s'.jumps } := by
  have hn : (UInt64.ofNat k).toNat = k := UInt64.toNat_ofNat_of_lt' hk
  have hshort : s.cursor.delivered.toNat + (1 : UInt64).toNat < 2 ^ 64 := by
    rw [UInt64.toNat_one]
    omega
  have hgap : (UInt64.ofNat k).toNat = s.cursor.delivered.toNat +
      ((saturatingSub (UInt64.ofNat k) (s.cursor.delivered + 1)).toNat + 1) := by
    rw [saturatingSub_toNat, toNat_add_one hshort, hn]
    omega
  have hlt' : s.cursor.delivered < UInt64.ofNat k := by
    rw [UInt64.lt_iff_toNat_lt, hn]
    exact hlt
  refine ⟨{ s with
    cursor := ⟨UInt64.ofNat k⟩
    jumps := s.jumps ++ [⟨s.cursor.delivered, UInt64.ofNat k,
      saturatingSub (UInt64.ofNat k) (s.cursor.delivered + 1)⟩] }, ?_,
    h.of_lagged hlt' hgap, hn, rfl⟩
  simp only [hear, Cursor.jump, b.add_of_lt hshort, Option.bind_eq_bind, Option.bind_some]
  rfl

/-- The first frame of a connection is taken, and the others lead on from there. -/
theorem hear_of_leads {s : Live} {frame : Frame} {frames : List Frame}
    (h : Exact s.log s.cursor s.lines s.jumps) (hshort : s.log.length < 2 ^ 64)
    (hleads : Leads stream s.log s.cursor.delivered.toNat (frame :: frames) s.sent) :
    ∃ s', hear b s frame = some s' ∧ Exact s.log s'.cursor s'.lines s'.jumps ∧
      Leads stream s.log s'.cursor.delivered.toNat frames s.sent ∧
        s' = { s with cursor := s'.cursor, lines := s'.lines, jumps := s'.jumps } := by
  cases hleads with
  | event hline rest =>
    have hlt := (List.getElem?_eq_some_iff.mp hline).1
    obtain ⟨s', hhear, hexact, hdelivered, hframe⟩ := hear_event h (by omega) hline
    rw [← hdelivered] at rest
    have hjumps : s'.jumps = s.jumps := by rw [hframe]
    refine ⟨s', hhear, ?_, rest, ?_⟩
    · rw [hjumps]
      exact hexact
    · rw [hjumps]
      exact hframe
  | lagged hlt hle rest =>
    obtain ⟨s', hhear, hexact, hdelivered, hframe⟩ := hear_lagged h (by omega) hlt
    rw [← hdelivered] at rest
    have hlines : s'.lines = s.lines := by rw [hframe]
    refine ⟨s', hhear, ?_, rest, ?_⟩
    · rw [hlines]
      exact hexact
    · rw [hlines]
      exact hframe

/-! ## One action -/

theorem Sound.write {s : Live} {frame : Frame} {upTo : Nat} (h : Sound stream s)
    (hupTo : upTo ≤ s.log.length) (hleads : Leads stream s.log s.sent [frame] upTo)
    (flow : FlowControl) : Sound stream ({ s with flow := flow }.write frame upTo) := by
  obtain ⟨frames, hwire, hall⟩ := h.wire
  refine ⟨h.short, h.fits, h.evicted, hupTo, ⟨frames ++ [frame], ?_, hall.append stream hleads⟩,
    h.exact, h.refused, h.errors⟩
  rw [List.map_append, List.flatten_append, ← hwire]
  simp [Live.write]

theorem front_of_sound {s : Live} (h : Sound stream s) :
    (Frame.front s.decoder.buffer = .more ∧
      (s.transit = [] → s.cursor.delivered.toNat = s.sent)) ∨ ∃ frame frames n,
      Frame.front s.decoder.buffer = .item frame n ∧
        s.decoder.buffer.drop n ++ s.transit = (frames.map Frame.encodeFramed).flatten ∧
          Leads stream s.log s.cursor.delivered.toNat (frame :: frames) s.sent := by
  obtain ⟨frames, hwire, hleads⟩ := h.wire
  have hfits := hleads.fits stream h.fits
  rcases Framing.front_of_written (F := Frame.framing)
    (fun f hf x => Frame.front_encodeFramed (hfits f hf) x)
    (Frame.front_of_short (b := []) (by decide)) hwire with ⟨hmore, hdrained⟩ |
      ⟨f, rest, rfl, hfront, hrest⟩
  · refine .inl ⟨hmore, fun htransit => ?_⟩
    rw [hdrained htransit] at hleads
    exact hleads.eq
  · exact .inr ⟨f, rest, _, hfront, hrest, hleads⟩

/-- One action keeps what every run keeps, and returns. -/
theorem sound_step {s : Live} (h : Sound stream s) (a : Action) :
    ∃ s', step b stream maxCredit s a = some s' ∧ Sound stream s' := by
  cases a with
  | produce line =>
    refine ⟨_, rfl, ?_⟩
    by_cases htakes : Takes stream s line
    · rw [if_pos htakes]
      obtain ⟨frames, hwire, hleads⟩ := h.wire
      have hlength : (s.log ++ [line]).length = s.log.length + 1 := by
        rw [List.length_append, List.length_singleton]
      have hevicted := h.evicted
      have hsent := h.sent
      refine ⟨?_, ?_, ?_, ?_, ⟨frames, hwire, hleads.grow stream line⟩, h.exact.grow line,
        h.refused, h.errors⟩
      · rw [hlength]
        exact htakes.1
      · intro l hl
        rcases List.mem_append.mp hl with hl | hl
        · exact h.fits l hl
        · rw [List.mem_singleton.mp hl]
          exact htakes.2
      · rw [hlength]
        exact Nat.le_succ_of_le hevicted
      · rw [hlength]
        exact Nat.le_succ_of_le hsent
    · rw [if_neg htakes]
      exact h
  | evict =>
    refine ⟨_, rfl, ?_⟩
    by_cases hlt : s.evicted < s.log.length
    · rw [if_pos hlt]
      exact ⟨h.short, h.fits, hlt, h.sent, h.wire, h.exact, h.refused, h.errors⟩
    · rw [if_neg hlt]
      exact h
  | send =>
    by_cases hlagged : s.sent < s.evicted
    · refine ⟨_, if_pos hlagged, ?_⟩
      exact h.write h.evicted (.lagged hlagged h.evicted (.nil _)) s.flow
    · rcases hline : s.log[s.sent]? with _ | line
      · exact ⟨s, by simp only [step, if_neg hlagged, hline], h⟩
      · have hlt := (List.getElem?_eq_some_iff.mp hline).1
        by_cases hcredit : s.flow.consume.2 = true
        · refine ⟨{ s with flow := s.flow.consume.1 }.write
            (.event stream (UInt64.ofNat (s.sent + 1)) line) (s.sent + 1), ?_, ?_⟩
          · simp only [step, if_neg hlagged, hline, if_pos hcredit]
          · exact h.write hlt (.event hline (.nil _)) _
        · exact ⟨s, by simp only [step, if_neg hlagged, hline, if_neg hcredit], h⟩
  | grant additional =>
    obtain ⟨flow, added, hgrant, -⟩ := FlowControl.grant_spec b s.flow additional
    refine ⟨{ s with flow := flow }, by rw [step, hgrant]; rfl, ?_⟩
    exact ⟨h.short, h.fits, h.evicted, h.sent, h.wire, h.exact, h.refused, h.errors⟩
  | arrive count =>
    obtain ⟨frames, hwire, hleads⟩ := h.wire
    refine ⟨_, rfl, h.short, h.fits, h.evicted, h.sent, ⟨frames, ?_, hleads⟩, h.exact, h.refused,
      h.errors⟩
    rw [← hwire]
    dsimp only [FrameDecoder.feed]
    rw [List.append_assoc, List.take_append_drop]
  | receive =>
    rcases front_of_sound h with ⟨hmore, -⟩ | ⟨frame, frames, n, hitem, hrest, hleads⟩
    · exact ⟨s, by rw [step, FrameDecoder.nextFrame_of_more hmore], h⟩
    · obtain ⟨s', hhear, hexact, hleads', hframe⟩ := hear_of_leads (b := b)
        (s := { s with decoder := ⟨s.decoder.buffer.drop n⟩ }) h.exact h.short hleads
      refine ⟨s', by rw [step, FrameDecoder.nextFrame_of_item hitem]; exact hhear, ?_⟩
      rw [hframe]
      exact ⟨h.short, h.fits, h.evicted, h.sent, ⟨frames, hrest, hleads'⟩, hexact, h.refused,
        h.errors⟩
  | reconnect credit =>
    obtain ⟨frames, -, hleads⟩ := h.wire
    exact ⟨_, rfl, h.short, h.fits, h.evicted, Nat.le_trans hleads.le h.sent, ⟨[], rfl, .nil _⟩,
      h.exact, h.refused, h.errors⟩

/-! ## Runs -/

theorem sound_start (credit : UInt32) : Sound stream (start credit maxCredit) where
  short := Nat.two_pow_pos 64
  fits := List.forall_mem_nil _
  evicted := Nat.le_refl 0
  sent := Nat.le_refl 0
  wire := ⟨[], rfl, .nil 0⟩
  exact := by
    refine ⟨List.Pairwise.nil, List.forall_mem_nil _, List.forall_mem_nil _, fun n hpos hle => ?_,
      List.forall_mem_nil _, rfl, fun _ => rfl⟩
    exact absurd hle (Nat.not_le.mpr hpos)
  refused := rfl
  errors := rfl

theorem sound_run {s : Live} (h : Sound stream s) (actions : List Action) :
    ∃ s', run b stream maxCredit s actions = some s' ∧ Sound stream s' := by
  induction actions generalizing s with
  | nil => exact ⟨s, rfl, h⟩
  | cons a actions ih =>
    obtain ⟨mid, hstep, hmid⟩ := @sound_step b stream maxCredit s h a
    obtain ⟨s', hrun, hs'⟩ := ih hmid
    refine ⟨s', ?_, hs'⟩
    rw [run, List.foldlM_cons, hstep]
    exact hrun

/-- A client that has read all that was written is where the server is. -/
theorem delivered_eq_sent {s : Live} (h : Sound stream s) (htransit : s.transit = [])
    (hwaits : s.decoder.nextFrame.1 = .ok none) : s.cursor.delivered.toNat = s.sent := by
  rcases front_of_sound h with ⟨_, hdrained⟩ | ⟨frame, frames, n, hitem, -, -⟩
  · exact hdrained htransit
  · rw [FrameDecoder.nextFrame_of_item hitem] at hwaits
    cases hwaits

/-- Every run of a stream returns, whatever is produced, dropped from the buffer, cut up
on the way and lost with a connection.  The client refuses no event and meets no error.
It has each line up to its cursor once, in order and as it was written, but for those a
jump told it of, whose gap is short by one; without jumps it has the front of the log.
When it has read all that was written it is where the server is. -/
theorem stream_exact (b : Build) (stream : Stream) (credit maxCredit : UInt32)
    (actions : List Action) :
    ∃ s, run b stream maxCredit (start credit maxCredit) actions = some s ∧
      s.refused = [] ∧ s.errors = [] ∧ Exact s.log s.cursor s.lines s.jumps ∧
        (s.transit = [] → s.decoder.nextFrame.1 = .ok none →
          s.cursor.delivered.toNat = s.sent) := by
  obtain ⟨s, hrun, h⟩ := sound_run (@sound_start stream maxCredit credit) actions
  exact ⟨s, hrun, h.refused, h.errors, h.exact, delivered_eq_sent h⟩

end Live
end Session
end IndieWorker
