import IndieWorker.Lib.Decision
import IndieWorker.Lib.FirstUse

/-!
# Administrative commands

`AdminWriteContext::record_action` of `admin-orm/src/lib.rs` over the two tables it
writes, one transaction a call.
-/

namespace IndieWorker
namespace AdminOrm

open Decision FirstUse

/-- An administrative command. -/
structure AdminAction where
  idempotencyKey : String
  actorSubject : String
  actorSessionId : String
  resource : String
  action : String
  reason : String
  deriving DecidableEq

inductive AdminOrmError where
  | database
  | decode
  | invalidOperationId
  | invalidDatabaseTarget
  | unsafeRuntimeRole
  | idempotencyConflict
  | readCredentialWritable
  | writeCredentialReadOnly
  deriving DecidableEq, Repr

variable {U : Type}

/-- A row of `admin_action_requests`. -/
structure ActionRequest (U : Type) extends AdminAction where
  operationId : U
  deriving DecidableEq

/-- A row of `admin_action_outbox`. -/
structure OutboxEvent (U : Type) where
  operationId : U
  eventKind : String
  deriving DecidableEq

structure Tables (U : Type) where
  requests : List (ActionRequest U)
  outbox : List (OutboxEvent U)
  deriving DecidableEq

def Tables.empty : Tables U := ⟨[], []⟩

/-- How operation identifiers travel as text: `Uuid::to_string` and the cast
`$1::uuid` on the way in, `operation_id::text` and `Uuid::parse_str` on the way
out. -/
structure UuidText (U : Type) where
  toText : U → String
  cast : String → Option U
  text : U → String
  parseStr : String → Option U

/-- What either side writes, the other reads back. -/
structure UuidText.Lawful (codec : UuidText U) : Prop where
  cast_toText : ∀ u, codec.cast (codec.toText u) = some u
  parseStr_text : ∀ u, codec.parseStr (codec.text u) = some u

/-- Where a call to the database can fail.  At `acknowledge` the commit took place
and its answer was lost. -/
inductive Stage where
  | begin
  | insert
  | existing
  | rollback
  | outbox
  | commit
  | acknowledge
  deriving DecidableEq, Repr

/-- One call of `record_action`: its input, the identifier `Uuid::new_v4` draws and
the stage at which the database fails it, if any. -/
structure Call (U : Type) where
  input : AdminAction
  fresh : U
  fault : Option Stage

/-- A call to the database. -/
def database (call : Call U) (stage : Stage) : Except AdminOrmError Unit :=
  if call.fault = some stage then .error .database else .ok ()

def operationIdFromRow (codec : UuidText U) (value : String) : Except AdminOrmError U :=
  match codec.parseStr value with
  | none => .error .invalidOperationId
  | some operationId => .ok operationId

/-- `INSERT .. ON CONFLICT (idempotency_key) DO NOTHING RETURNING operation_id::text`.
Answers `none` where the text is no identifier. -/
def insertRequest (codec : UuidText U) (operationId : String) (input : AdminAction)
    (tables : Tables U) : Option (Tables U × Option String) :=
  match codec.cast operationId with
  | none => none
  | some id =>
    if tables.requests.any fun row => row.idempotencyKey = input.idempotencyKey then
      some (tables, none)
    else
      some ({ tables with requests := tables.requests ++ [⟨input, id⟩] }, some (codec.text id))

/-- The condition of the `SELECT` for an existing request. -/
def selects (input : AdminAction) (row : ActionRequest U) : Bool :=
  row.idempotencyKey = input.idempotencyKey ∧ row.actorSubject = input.actorSubject ∧
    row.actorSessionId = input.actorSessionId ∧ row.resource = input.resource ∧
      row.action = input.action ∧ row.reason = input.reason

/-- `INSERT INTO admin_action_outbox`. -/
def insertOutbox (codec : UuidText U) (operationId : String) (tables : Tables U) :
    Option (Tables U) :=
  (codec.cast operationId).map fun id =>
    { tables with outbox := tables.outbox ++ [⟨id, "admin.action.requested"⟩] }

/-- The request that was there, after an insertion that did nothing. -/
def existingRequest (codec : UuidText U) (tables : Tables U) (call : Call U) :
    Except AdminOrmError U := do
  database call .existing
  match tables.requests.find? (selects call.input) with
  | some row => operationIdFromRow codec (codec.text row.operationId)
  | none => do
    database call .rollback
    .error .idempotencyConflict

/-- The statements of one call, on the tables as the transaction sees them. -/
def statements (codec : UuidText U) (tables : Tables U) (call : Call U) :
    Except AdminOrmError (Tables U × U) := do
  database call .begin
  database call .insert
  match insertRequest codec (codec.toText call.fresh) call.input tables with
  | none => .error .database
  | some (tables, none) => do
    let operationId ← existingRequest codec tables call
    .ok (tables, operationId)
  | some (tables, some value) => do
    let operationId ← operationIdFromRow codec value
    database call .outbox
    match insertOutbox codec (codec.toText operationId) tables with
    | none => .error .database
    | some tables => .ok (tables, operationId)

/-- Record an administrative command.  A transaction that is not committed leaves
the tables as they were. -/
def recordAction (codec : UuidText U) (tables : Tables U) (call : Call U) :
    Tables U × Except AdminOrmError U :=
  match statements codec tables call with
  | .error e => (tables, .error e)
  | .ok (written, operationId) =>
    if call.fault = some .commit then (tables, .error .database)
    else if call.fault = some .acknowledge then (written, .error .database)
    else (written, .ok operationId)

/-! ## What a call means

A call binds its key to its input, and answers with the request the key is bound
to. -/

def requestKey (row : ActionRequest U) : String := row.idempotencyKey

/-- The event that announces a request. -/
def requested (row : ActionRequest U) : OutboxEvent U := ⟨row.operationId, "admin.action.requested"⟩

/-- The request a call makes. -/
def Call.request (call : Call U) : ActionRequest U := ⟨call.input, call.fresh⟩

/-- Tables whose keys are distinct and whose outbox announces every request once. -/
structure Consistent (tables : Tables U) : Prop where
  keyed : Keyed requestKey tables.requests
  announced : tables.outbox = tables.requests.map requested

/-- The tables after a call that was committed. -/
def settled (tables : Tables U) (call : Call U) : Tables U :=
  let requests := put requestKey call.request tables.requests
  ⟨requests, requests.map requested⟩

/-- The request the key of a call is bound to, once the call was committed. -/
def boundRequest (tables : Tables U) (call : Call U) : ActionRequest U :=
  (bound requestKey (requestKey call.request) tables.requests).getD call.request

/-- The answer to a call whose key is bound to a request. -/
def answer (row : ActionRequest U) (input : AdminAction) : Except AdminOrmError U :=
  if row.toAdminAction = input then .ok row.operationId else .error .idempotencyConflict

theorem answer_request (call : Call U) : answer call.request call.input = .ok call.fresh :=
  if_pos rfl

theorem consistent_empty : Consistent (.empty : Tables U) := ⟨keyed_nil _, rfl⟩

theorem Consistent.settled {tables : Tables U} (h : Consistent tables) (call : Call U) :
    Consistent (settled tables call) :=
  ⟨h.keyed.put call.request, rfl⟩

/-- A call whose key is bound writes nothing. -/
theorem settled_of_bound {tables : Tables U} {call : Call U} {row : ActionRequest U}
    (h : Consistent tables)
    (hrow : bound requestKey (requestKey call.request) tables.requests = some row) :
    settled tables call = tables := by
  unfold settled
  rw [put_of_bound hrow]
  dsimp only
  rw [← h.announced]

theorem settled_of_free {tables : Tables U} {call : Call U} (h : Consistent tables)
    (hfree : bound requestKey (requestKey call.request) tables.requests = none) :
    settled tables call =
      ⟨tables.requests ++ [call.request], tables.outbox ++ [requested call.request]⟩ := by
  unfold settled
  rw [put_of_free hfree, h.announced]
  dsimp only
  rw [List.map_append]
  rfl

theorem selects_iff (input : AdminAction) (row : ActionRequest U) :
    selects input row = true ↔ row.toAdminAction = input := by
  obtain ⟨row, id⟩ := row
  unfold selects
  rw [decide_eq_true_iff, AdminAction.mk.injEq]

/-- The `SELECT` finds the request of the key, if its other fields agree. -/
theorem find_selects {tables : Tables U} {call : Call U} {row : ActionRequest U}
    (h : Consistent tables)
    (hrow : bound requestKey (requestKey call.request) tables.requests = some row) :
    tables.requests.find? (selects call.input) =
      if row.toAdminAction = call.input then some row else none := by
  have honly : ∀ r ∈ tables.requests, selects call.input r = true → r = row := by
    intro r hr hselects
    have hinput := (selects_iff call.input r).mp hselects
    have hkey : requestKey r = requestKey call.request := congrArg AdminAction.idempotencyKey hinput
    have hbound := (bound_eq_some_iff h.keyed).mpr ⟨hr, hkey⟩
    exact Option.some.inj (hbound.symm.trans hrow)
  by_cases hinput : row.toAdminAction = call.input
  · rw [if_pos hinput]
    have hsome : (tables.requests.find? (selects call.input)).isSome := by
      rw [List.find?_isSome]
      exact ⟨row, ((bound_eq_some_iff h.keyed).mp hrow).1, (selects_iff _ _).mpr hinput⟩
    obtain ⟨r, hr⟩ := Option.isSome_iff_exists.mp hsome
    rw [hr, honly r (List.mem_of_find?_eq_some hr) (List.find?_some hr)]
  · rw [if_neg hinput, List.find?_eq_none]
    intro r hr hselects
    have hsame := honly r hr hselects
    exact hinput (hsame ▸ (selects_iff _ _).mp hselects)

theorem database_cases (call : Call U) (stage : Stage) :
    database call stage = .ok () ∨
      call.fault ≠ none ∧ database call stage = .error .database := by
  unfold database
  by_cases hfault : call.fault = some stage
  · rw [if_pos hfault, hfault]
    exact Or.inr ⟨nofun, rfl⟩
  · rw [if_neg hfault]
    exact Or.inl rfl

/-- The insertion does what `put` does. -/
theorem insertRequest_eq {codec : UuidText U} (hcodec : codec.Lawful) (tables : Tables U)
    (call : Call U) :
    insertRequest codec (codec.toText call.fresh) call.input tables =
      match bound requestKey (requestKey call.request) tables.requests with
      | some _ => some (tables, none)
      | none =>
        some ({ tables with requests := tables.requests ++ [call.request] },
          some (codec.text call.fresh)) := by
  unfold insertRequest
  rw [hcodec.cast_toText]
  dsimp only
  cases hbound : bound requestKey (requestKey call.request) tables.requests with
  | some row =>
    have hrow := List.find?_some hbound
    have hmem := List.mem_of_find?_eq_some hbound
    exact if_pos (List.any_eq_true.mpr ⟨row, hmem, hrow⟩)
  | none =>
    have hfree := bound_eq_none_iff.mp hbound
    have hany : ¬ (tables.requests.any fun row =>
        row.idempotencyKey = call.input.idempotencyKey) = true := by
      intro hany
      obtain ⟨row, hmem, hrow⟩ := List.any_eq_true.mp hany
      exact hfree row hmem (of_decide_eq_true hrow)
    exact if_neg hany

theorem operationIdFromRow_text {codec : UuidText U} (hcodec : codec.Lawful) (u : U) :
    operationIdFromRow codec (codec.text u) = .ok u := by
  unfold operationIdFromRow
  rw [hcodec.parseStr_text]

/-- The existing request, where its key is bound. -/
theorem existingRequest_cases {codec : UuidText U} (hcodec : codec.Lawful) {tables : Tables U}
    {call : Call U} {row : ActionRequest U} (h : Consistent tables)
    (hrow : bound requestKey (requestKey call.request) tables.requests = some row) :
    existingRequest codec tables call = answer row call.input ∨
      call.fault ≠ none ∧ existingRequest codec tables call = .error .database := by
  unfold existingRequest answer
  rw [find_selects h hrow]
  rcases database_cases call .existing with hok | ⟨hfault, hfail⟩
  · rw [hok, ok_bind]
    by_cases hinput : row.toAdminAction = call.input
    · rw [if_pos hinput, if_pos hinput]
      exact Or.inl (operationIdFromRow_text hcodec _)
    · rw [if_neg hinput, if_neg hinput]
      dsimp only
      rcases database_cases call .rollback with hok | ⟨hfault, hfail⟩
      · rw [hok]
        exact Or.inl rfl
      · rw [hfail]
        exact Or.inr ⟨hfault, rfl⟩
  · rw [hfail]
    exact Or.inr ⟨hfault, rfl⟩

/-- The statements of a call bind its key and answer with the request it is bound
to, or a fault stops them. -/
theorem statements_cases {codec : UuidText U} (hcodec : codec.Lawful) {tables : Tables U}
    (call : Call U) (h : Consistent tables) :
    statements codec tables call =
        (answer (boundRequest tables call) call.input).map (fun id => (settled tables call, id)) ∨
      call.fault ≠ none ∧ statements codec tables call = .error .database := by
  unfold statements
  rcases database_cases call .begin with hbegin | ⟨hfault, hfail⟩
  · rcases database_cases call .insert with hinsert | ⟨hfault, hfail⟩
    · rw [hbegin, hinsert, ok_bind, ok_bind, insertRequest_eq hcodec]
      unfold boundRequest
      cases hbound : bound requestKey (requestKey call.request) tables.requests with
      | some row =>
        dsimp only [Option.getD]
        rw [settled_of_bound h hbound]
        rcases existingRequest_cases hcodec h hbound with hanswer | ⟨hfault, hfail⟩
        · rw [hanswer]
          cases answer row call.input with
          | error e => exact Or.inl rfl
          | ok id => exact Or.inl rfl
        · rw [hfail]
          exact Or.inr ⟨hfault, rfl⟩
      | none =>
        dsimp only [Option.getD]
        rw [operationIdFromRow_text hcodec, ok_bind]
        rcases database_cases call .outbox with hok | ⟨hfault, hfail⟩
        · rw [hok, ok_bind, insertOutbox, hcodec.cast_toText, settled_of_free h hbound]
          rw [answer_request]
          exact Or.inl rfl
        · rw [hfail]
          exact Or.inr ⟨hfault, rfl⟩
    · rw [hbegin, hfail]
      exact Or.inr ⟨hfault, rfl⟩
  · rw [hfail]
    exact Or.inr ⟨hfault, rfl⟩

/-- A call that is refused writes nothing. -/
theorem settled_of_refused {tables : Tables U} {call : Call U} {e : AdminOrmError}
    (h : Consistent tables) (hanswer : answer (boundRequest tables call) call.input = .error e) :
    settled tables call = tables := by
  cases hbound : bound requestKey (requestKey call.request) tables.requests with
  | some row => exact settled_of_bound h hbound
  | none =>
    have hnew : boundRequest tables call = call.request := by rw [boundRequest, hbound]; rfl
    rw [hnew, answer_request] at hanswer
    cases hanswer

/-- A call settles its key and answers with it, or a fault leaves the tables
settled or as they were. -/
theorem recordAction_cases {codec : UuidText U} (hcodec : codec.Lawful) {tables : Tables U}
    (call : Call U) (h : Consistent tables) :
    recordAction codec tables call =
        (settled tables call, answer (boundRequest tables call) call.input) ∨
      call.fault ≠ none ∧
        (recordAction codec tables call = (tables, .error .database) ∨
          recordAction codec tables call = (settled tables call, .error .database)) := by
  unfold recordAction
  rcases statements_cases hcodec call h with hstatements | ⟨hfault, hfail⟩
  · rw [hstatements]
    cases hanswer : answer (boundRequest tables call) call.input with
    | error e =>
      rw [settled_of_refused h hanswer]
      exact Or.inl rfl
    | ok id =>
      dsimp only [Except.map]
      by_cases hcommit : call.fault = some .commit
      · rw [if_pos hcommit, hcommit]
        exact Or.inr ⟨nofun, Or.inl rfl⟩
      · rw [if_neg hcommit]
        by_cases hlost : call.fault = some .acknowledge
        · rw [if_pos hlost, hlost]
          exact Or.inr ⟨nofun, Or.inr rfl⟩
        · rw [if_neg hlost]
          exact Or.inl rfl
  · rw [hfail]
    exact Or.inr ⟨hfault, Or.inl rfl⟩

end AdminOrm
end IndieWorker
