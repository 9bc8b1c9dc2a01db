import IndieWorker.AdminOrm
import IndieWorker.Lib.Run

/-!
# Histories of administrative commands

Any number of calls of `record_action`, with retries, conflicting reuses of a key
and failures of the database, on tables that were empty.
-/

namespace IndieWorker
namespace AdminOrm

open FirstUse Run

variable {U : Type}

abbrev RecordStep (U : Type) := Entry (Tables U) (Call U) (Except AdminOrmError U)

/-- One call as a step. -/
def record (codec : UuidText U) (tables : Tables U) (call : Call U) :
    Option (Tables U × Except AdminOrmError U) :=
  some (recordAction codec tables call)

theorem record_total (codec : UuidText U) (tables : Tables U) (call : Call U) :
    (record codec tables call).isSome := rfl

def history (codec : UuidText U) (calls : List (Call U)) : List (RecordStep U) :=
  trace (record codec) .empty calls

def tablesAfter (codec : UuidText U) (calls : List (Call U)) : Tables U :=
  final (record codec) .empty calls

/-- The key of a call. -/
def callKey (call : Call U) : String := requestKey call.request

/-- A call was failed by the database, or its key is bound and it was answered
with the request the key is bound to. -/
def Answered (tables : Tables U) (x : RecordStep U) : Prop :=
  (x.event.fault ≠ none ∧ x.output = .error .database) ∨
    ∃ row, bound requestKey (callKey x.event) tables.requests = some row ∧
      x.output = answer row x.event.input

/-- What a history leaves in the tables, and how its calls were answered. -/
structure Account (h : List (RecordStep U)) (tables : Tables U) : Prop where
  consistent : Consistent tables
  made : tables.requests.Sublist (h.map fun x => x.event.request)
  before : ∀ x ∈ h, Consistent x.before
  answered : ∀ x ∈ h, Answered tables x
  ordered : h.Pairwise fun y x => Answered x.before y

theorem account_nil : Account [] (.empty : Tables U) :=
  ⟨consistent_empty, List.Sublist.slnil, nofun, nofun, List.Pairwise.nil⟩

/-- An answer stays right when another call settles. -/
theorem Answered.settled {tables : Tables U} {x : RecordStep U} (h : Answered tables x)
    (call : Call U) : Answered (settled tables call) x := by
  rcases h with hfault | ⟨row, hrow, hanswer⟩
  · exact Or.inl hfault
  · exact Or.inr ⟨row, bound_put_of_bound hrow, hanswer⟩

/-- What one call does to the tables and answers. -/
theorem record_cases {codec : UuidText U} (hcodec : codec.Lawful) {tables tables' : Tables U}
    {call : Call U} {o : Except AdminOrmError U} (h : Consistent tables)
    (hstep : record codec tables call = some (tables', o)) :
    (tables' = tables ∨ tables' = settled tables call) ∧
      Answered tables' ⟨tables, call, o, tables'⟩ := by
  unfold record at hstep
  rcases recordAction_cases hcodec call h with hok | ⟨hfault, hfail | hfail⟩
  · rw [hok] at hstep
    cases hstep
    have hbound : bound requestKey (callKey call) (settled tables call).requests =
        some (boundRequest tables call) := bound_put_self call.request tables.requests
    exact ⟨Or.inr rfl, Or.inr ⟨_, hbound, rfl⟩⟩
  · rw [hfail] at hstep
    cases hstep
    exact ⟨Or.inl rfl, Or.inl ⟨hfault, rfl⟩⟩
  · rw [hfail] at hstep
    cases hstep
    exact ⟨Or.inr rfl, Or.inl ⟨hfault, rfl⟩⟩

theorem settled_requests_sublist {h : List (RecordStep U)} {tables : Tables U} (call : Call U)
    (hmade : tables.requests.Sublist (h.map fun x => x.event.request)) :
    (settled tables call).requests.Sublist
      ((h.map fun x => x.event.request) ++ [call.request]) := by
  unfold settled put
  dsimp only
  split
  · exact hmade.trans (List.sublist_append_left _ _)
  · exact hmade.append (List.Sublist.refl _)

/-- One call keeps the account. -/
theorem Account.step {codec : UuidText U} (hcodec : codec.Lawful) {h : List (RecordStep U)}
    {tables tables' : Tables U} {call : Call U} {o : Except AdminOrmError U}
    (hacc : Account h tables) (hstep : record codec tables call = some (tables', o)) :
    Account (h ++ [⟨tables, call, o, tables'⟩]) tables' := by
  obtain ⟨htables, hanswered⟩ := record_cases hcodec hacc.consistent hstep
  have hold : ∀ x ∈ h, Answered tables' x := by
    intro x hx
    rcases htables with rfl | rfl
    · exact hacc.answered x hx
    · exact (hacc.answered x hx).settled call
  constructor
  · rcases htables with rfl | rfl
    · exact hacc.consistent
    · exact hacc.consistent.settled call
  · rw [List.map_append]
    rcases htables with rfl | rfl
    · exact hacc.made.trans (List.sublist_append_left _ _)
    · exact settled_requests_sublist call hacc.made
  · intro x hx
    rcases List.mem_append.mp hx with hx | hx
    · exact hacc.before x hx
    · rw [List.mem_singleton.mp hx]
      exact hacc.consistent
  · intro x hx
    rcases List.mem_append.mp hx with hx | hx
    · exact hold x hx
    · rw [List.mem_singleton.mp hx]
      exact hanswered
  · rw [List.pairwise_append]
    refine ⟨hacc.ordered, List.pairwise_singleton _ _, fun y hy x hx => ?_⟩
    rw [List.mem_singleton.mp hx]
    exact hacc.answered y hy

theorem account {codec : UuidText U} (hcodec : codec.Lawful) (calls : List (Call U)) :
    Account (history codec calls) (tablesAfter codec calls) :=
  history_invariant_start Account account_nil
    (fun _ _ _ _ _ hacc hstep => hacc.step hcodec hstep) calls

/-! ## What callers see -/

/-- The key is bound to a request that differs in some other field. -/
def Conflicts (tables : Tables U) (input : AdminAction) : Prop :=
  ∃ row ∈ tables.requests, row.idempotencyKey = input.idempotencyKey ∧ row.toAdminAction ≠ input

/-- A call the database did not fail is answered with an identifier, or refused
because its key conflicts, and then writes nothing. -/
theorem recordAction_of_no_fault {codec : UuidText U} (hcodec : codec.Lawful) {tables : Tables U}
    {call : Call U} (h : Consistent tables) (hfault : call.fault = none) :
    (Conflicts tables call.input ∧
      recordAction codec tables call = (tables, .error .idempotencyConflict)) ∨
    (¬ Conflicts tables call.input ∧
      recordAction codec tables call =
        (settled tables call, .ok (boundRequest tables call).operationId)) := by
  have hok : recordAction codec tables call =
      (settled tables call, answer (boundRequest tables call) call.input) := by
    rcases recordAction_cases hcodec call h with hok | ⟨hne, _⟩
    · exact hok
    · exact absurd hfault hne
  rw [hok]
  by_cases hconflict : Conflicts tables call.input
  · obtain ⟨row, hmem, hkey, hinput⟩ := hconflict
    have hbound : bound requestKey (requestKey call.request) tables.requests = some row :=
      (bound_eq_some_iff h.keyed).mpr ⟨hmem, hkey⟩
    have hrow : boundRequest tables call = row := by rw [boundRequest, hbound]; rfl
    rw [settled_of_bound h hbound, hrow, answer, if_neg hinput]
    exact Or.inl ⟨⟨row, hmem, hkey, hinput⟩, rfl⟩
  · refine Or.inr ⟨hconflict, ?_⟩
    have hinput : (boundRequest tables call).toAdminAction = call.input := by
      unfold boundRequest
      cases hbound : bound requestKey (requestKey call.request) tables.requests with
      | none => rfl
      | some row =>
        have hmem := (bound_eq_some_iff h.keyed).mp hbound
        exact by_contra fun hne => hconflict ⟨row, hmem.1, hmem.2, hne⟩
    rw [answer, if_pos hinput]

theorem step_of_mem_history {codec : UuidText U} {calls : List (Call U)} {x : RecordStep U}
    (hx : x ∈ history codec calls) : recordAction codec x.before x.event = (x.after, x.output) :=
  Option.some.inj (step_of_mem_trace hx)

/-- The request that a call was answered with. -/
theorem Answered.of_no_fault {tables : Tables U} {x : RecordStep U} (h : Answered tables x)
    (hfault : x.event.fault = none) :
    ∃ row, bound requestKey (callKey x.event) tables.requests = some row ∧
      x.output = answer row x.event.input := by
  rcases h with ⟨hne, _⟩ | h
  · exact absurd hfault hne
  · exact h

theorem Answered.of_ok {tables : Tables U} {x : RecordStep U} {id : U} (h : Answered tables x)
    (hok : x.output = .ok id) :
    ∃ row, bound requestKey (callKey x.event) tables.requests = some row ∧
      row.toAdminAction = x.event.input ∧ row.operationId = id := by
  rcases h with ⟨_, herror⟩ | ⟨row, hrow, hanswer⟩
  · rw [herror] at hok
    cases hok
  · rw [hanswer, answer] at hok
    by_cases hinput : row.toAdminAction = x.event.input
    · rw [if_pos hinput] at hok
      exact ⟨row, hrow, hinput, Except.ok.inj hok⟩
    · rw [if_neg hinput] at hok
      cases hok

/-- The key of the calls of a history is bound once. -/
theorem existsUnique_request {tables : Tables U} (h : Consistent tables) {k : String}
    {row : ActionRequest U} (hrow : bound requestKey k tables.requests = some row) :
    ∃! row, row ∈ tables.requests ∧ row.idempotencyKey = k := by
  refine ⟨row, (bound_eq_some_iff h.keyed).mp hrow, fun row' hrow' => ?_⟩
  have hbound : bound requestKey k tables.requests = some row' :=
    (bound_eq_some_iff h.keyed).mpr hrow'
  exact Option.some.inj (hbound.symm.trans hrow)

/-- Calls with equal inputs are answered alike, a call whose key is in use for
another command is refused and writes nothing, and each key in use has one request,
one event, and one identifier for all its callers. -/
theorem record_exact {codec : UuidText U} (hcodec : codec.Lawful) {calls : List (Call U)}
    (hfresh : (calls.map Call.fresh).Nodup) :
    (∀ x ∈ history codec calls, ∀ y ∈ history codec calls, x.event.input = y.event.input →
      x.event.fault = none → y.event.fault = none → x.output = y.output) ∧
    (∀ x ∈ history codec calls, x.event.fault = none →
      (Conflicts x.before x.event.input ∧ x.output = .error .idempotencyConflict ∧
        x.after = x.before) ∨
      (¬ Conflicts x.before x.event.input ∧ ∃ id, x.output = .ok id)) ∧
    (history codec calls).Pairwise (fun y x => (∃ id, y.output = .ok id) →
      y.event.input.idempotencyKey = x.event.input.idempotencyKey →
        y.event.input ≠ x.event.input → Conflicts x.before x.event.input) ∧
    (∀ x ∈ history codec calls, x.event.fault = none →
      ∃! row, row ∈ (tablesAfter codec calls).requests ∧
        row.idempotencyKey = x.event.input.idempotencyKey) ∧
    (∀ x ∈ history codec calls, ∀ id, x.output = .ok id →
      ∃ row ∈ (tablesAfter codec calls).requests,
        row.toAdminAction = x.event.input ∧ row.operationId = id) ∧
    (∀ row ∈ (tablesAfter codec calls).requests, ∃ x ∈ history codec calls,
      x.event.input = row.toAdminAction ∧ x.event.fresh = row.operationId) ∧
    ((tablesAfter codec calls).requests.map fun row => row.idempotencyKey).Nodup ∧
    ((tablesAfter codec calls).requests.map fun row => row.operationId).Nodup ∧
    (tablesAfter codec calls).outbox = (tablesAfter codec calls).requests.map requested := by
  have hacc := account hcodec calls
  have hevents : (history codec calls).map Entry.event = calls :=
    map_event_trace (record_total codec) Tables.empty calls
  refine ⟨?_, ?_, ?_, ?_, ?_, ?_, hacc.consistent.keyed, ?_, hacc.consistent.announced⟩
  · intro x hx y hy hinput hxfault hyfault
    obtain ⟨row, hrow, hxanswer⟩ := (hacc.answered x hx).of_no_fault hxfault
    obtain ⟨row', hrow', hyanswer⟩ := (hacc.answered y hy).of_no_fault hyfault
    have hkey : callKey x.event = callKey y.event := congrArg AdminAction.idempotencyKey hinput
    rw [hkey, hrow'] at hrow
    cases hrow
    rw [hxanswer, hyanswer, hinput]
  · intro x hx hfault
    have hstep := step_of_mem_history hx
    rcases recordAction_of_no_fault hcodec (hacc.before x hx) hfault with ⟨hconflict, hrefused⟩ |
      ⟨hconflict, hok⟩
    · rw [hrefused] at hstep
      have hafter : x.before = x.after := congrArg Prod.fst hstep
      have houtput : .error .idempotencyConflict = x.output := congrArg Prod.snd hstep
      exact Or.inl ⟨hconflict, houtput.symm, hafter.symm⟩
    · rw [hok] at hstep
      have houtput : .ok (boundRequest x.before x.event).operationId = x.output :=
        congrArg Prod.snd hstep
      exact Or.inr ⟨hconflict, _, houtput.symm⟩
  · refine hacc.ordered.imp_of_mem ?_
    intro y x _ hx hanswered ⟨id, hok⟩ hkey hinput
    obtain ⟨row, hrow, hrowinput, _⟩ := hanswered.of_ok hok
    obtain ⟨hmem, hrowkey⟩ := (bound_eq_some_iff (hacc.before x hx).keyed).mp hrow
    exact ⟨row, hmem, hrowkey.trans hkey, fun h => hinput (hrowinput.symm.trans h)⟩
  · intro x hx hfault
    obtain ⟨row, hrow, _⟩ := (hacc.answered x hx).of_no_fault hfault
    exact existsUnique_request hacc.consistent hrow
  · intro x hx id hok
    obtain ⟨row, hrow, hinput, hid⟩ := (hacc.answered x hx).of_ok hok
    exact ⟨row, ((bound_eq_some_iff hacc.consistent.keyed).mp hrow).1, hinput, hid⟩
  · intro row hrow
    obtain ⟨x, hx, hrequest⟩ := List.mem_map.mp (hacc.made.subset hrow)
    subst hrequest
    exact ⟨x, hx, rfl, rfl⟩
  · have hids := hacc.made.map fun row => row.operationId
    rw [List.map_map] at hids
    rw [← hevents, List.map_map] at hfresh
    exact List.Nodup.sublist hids hfresh

/-- Identifiers as their canonical texts. -/
def canonical : UuidText String := ⟨id, some, id, some⟩

def suspend : AdminAction :=
  ⟨"k1", "usr_1", "ses_1", "org/7", "suspend", "abuse"⟩

/-- A call whose acknowledgement was lost, its retry, a conflicting reuse of its key
and a call with a key of its own. -/
def retried : List (Call String) :=
  [⟨suspend, "018f2ee1-3ef5-7f4b-9e27-494ce50e8c4f", some .acknowledge⟩,
    ⟨suspend, "018f2ee1-3ef5-7f4b-9e27-494ce50e8c50", none⟩,
    ⟨{ suspend with reason := "fraud" }, "018f2ee1-3ef5-7f4b-9e27-494ce50e8c51", none⟩,
    ⟨{ suspend with idempotencyKey := "k2" }, "018f2ee1-3ef5-7f4b-9e27-494ce50e8c52", none⟩]

theorem record_exact_of_retried :
    (history canonical retried).map Entry.output =
      [.error .database, .ok "018f2ee1-3ef5-7f4b-9e27-494ce50e8c4f", .error .idempotencyConflict,
        .ok "018f2ee1-3ef5-7f4b-9e27-494ce50e8c52"] ∧
    (tablesAfter canonical retried).outbox =
      (tablesAfter canonical retried).requests.map requested ∧
    (tablesAfter canonical retried).requests.length = 2 :=
  have hcodec : canonical.Lawful := ⟨fun _ => rfl, fun _ => rfl⟩
  ⟨by decide +kernel, (record_exact hcodec (by decide +kernel)).2.2.2.2.2.2.2.2,
    by decide +kernel⟩

end AdminOrm
end IndieWorker
