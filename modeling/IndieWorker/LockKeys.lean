import IndieWorker.Lib.Text

/-!
# Lock identities

`src/lock_keys.rs`.  The key type is another crate's.  A key is missing when the
program panics because that crate refused the text.
-/

namespace IndieWorker
namespace LockKeys

open Text

section Program

variable {Key ε : Type} (new : String → Except ε Key)

def key (domain name : String) : Option Key :=
  (new ("gha-indie-worker/" ++ domain ++ "/" ++ name)).toOption

/-- Orchestration of one exact job and revision. -/
def jobExecution (jobId revisionSha : String) : Option Key :=
  key new "jobs" ("execute:" ++ jobId ++ ":" ++ revisionSha)

/-- Mutation of one compose session. -/
def composeSession (sessionId : String) : Option Key :=
  key new "sessions" ("compose:" ++ sessionId)

/-- A single maintenance operation of the fleet. -/
def singletonJob (job : String) : Option Key := key new "maintenance" ("singleton:" ++ job)

/-- The schema migration runner. -/
def migration : Option Key := key new "migrations" "apply"

end Program

/-- Two fields behind a prefix, with a one-character text between them. -/
theorem toList_fields {sep : String} {c : Char} (hsep : sep.toList = [c]) (front a b : String) :
    (front ++ a ++ sep ++ b).toList = front.toList ++ (a.toList ++ c :: b.toList) := by
  rw [String.toList_append, String.toList_append, String.toList_append, hsep, List.append_assoc,
    List.append_assoc, List.singleton_append]

/-- A call for a key. -/
inductive Call where
  | jobExecution (jobId revisionSha : String)
  | composeSession (sessionId : String)
  | singletonJob (job : String)
  | migration
  deriving DecidableEq, Repr

namespace Call

def run {Key ε : Type} (new : String → Except ε Key) : Call → Option Key
  | jobExecution jobId revisionSha => LockKeys.jobExecution new jobId revisionSha
  | composeSession sessionId => LockKeys.composeSession new sessionId
  | singletonJob job => LockKeys.singletonJob new job
  | migration => LockKeys.migration new

/-- A revision, if the call has one, is without a colon. -/
def PlainRevision : Call → Prop
  | jobExecution _ revisionSha => ':' ∉ revisionSha.toList
  | _ => True

/-! ## The text of a key -/

def domain : Call → String
  | jobExecution _ _ => "jobs"
  | composeSession _ => "sessions"
  | singletonJob _ => "maintenance"
  | migration => "migrations"

def name : Call → String
  | jobExecution jobId revisionSha => "execute:" ++ jobId ++ ":" ++ revisionSha
  | composeSession sessionId => "compose:" ++ sessionId
  | singletonJob job => "singleton:" ++ job
  | migration => "apply"

def text (c : Call) : String := "gha-indie-worker/" ++ c.domain ++ "/" ++ c.name

theorem run_eq {Key ε : Type} (new : String → Except ε Key) (c : Call) :
    c.run new = (new c.text).toOption := by
  cases c with
  | jobExecution jobId revisionSha => rfl
  | composeSession sessionId => rfl
  | singletonJob job => rfl
  | migration => rfl

theorem slash_not_mem_domain (c : Call) : '/' ∉ c.domain.toList := by
  cases c with
  | jobExecution jobId revisionSha => exact (by decide : '/' ∉ "jobs".toList)
  | composeSession sessionId => exact (by decide : '/' ∉ "sessions".toList)
  | singletonJob job => exact (by decide : '/' ∉ "maintenance".toList)
  | migration => exact (by decide : '/' ∉ "migrations".toList)

/-- The domain ends at the first slash after the prefix. -/
theorem domain_name_of_text {c d : Call} (h : c.text = d.text) :
    c.domain = d.domain ∧ c.name = d.name := by
  have hchars := congrArg String.toList h
  have hslash : "/".toList = ['/'] := by decide
  have hlist : ∀ e : Call, e.text.toList =
      "gha-indie-worker/".toList ++ (e.domain.toList ++ '/' :: e.name.toList) := fun e =>
    toList_fields hslash "gha-indie-worker/" e.domain e.name
  rw [hlist, hlist] at hchars
  have hsplit : ∀ e : Call, splitOnce '/' (e.domain.toList ++ '/' :: e.name.toList) =
      some (e.domain.toList, e.name.toList) := fun e =>
    splitOnce_eq_some_iff.mpr ⟨rfl, e.slash_not_mem_domain⟩
  have hboth := (hsplit c).symm.trans
    ((congrArg (splitOnce '/') (List.append_cancel_left hchars)).trans (hsplit d))
  rw [Option.some.injEq, Prod.mk.injEq, String.toList_inj, String.toList_inj] at hboth
  exact hboth

/-- The revision starts after the last colon. -/
theorem jobExecution_name_inj {jobId revisionSha jobId' revisionSha' : String}
    (h : ':' ∉ revisionSha.toList) (h' : ':' ∉ revisionSha'.toList)
    (hname : (jobExecution jobId revisionSha).name = (jobExecution jobId' revisionSha').name) :
    jobId = jobId' ∧ revisionSha = revisionSha' := by
  have hcolon : ":".toList = [':'] := by decide
  have hlist : ∀ job sha : String, (jobExecution job sha).name.toList =
      "execute:".toList ++ (job.toList ++ ':' :: sha.toList) := fun job sha =>
    toList_fields hcolon "execute:" job sha
  have hchars := congrArg String.toList hname
  rw [hlist, hlist] at hchars
  have hboth := (rsplitOnce_append_cons jobId.toList h).symm.trans
    ((congrArg (rsplitOnce ':') (List.append_cancel_left hchars)).trans
      (rsplitOnce_append_cons jobId'.toList h'))
  rw [Option.some.injEq, Prod.mk.injEq, String.toList_inj, String.toList_inj] at hboth
  exact hboth

/-- The text names one call. -/
theorem text_inj {c d : Call} (hc : c.PlainRevision) (hd : d.PlainRevision)
    (h : c.text = d.text) : c = d := by
  obtain ⟨hdomain, hname⟩ := domain_name_of_text h
  cases c with
  | jobExecution jobId revisionSha =>
    cases d with
    | jobExecution jobId' revisionSha' =>
      obtain ⟨rfl, rfl⟩ := jobExecution_name_inj hc hd hname
      rfl
    | _ => exact absurd hdomain (by simp [domain])
  | composeSession sessionId =>
    cases d with
    | composeSession sessionId' =>
      exact congrArg composeSession ((String.append_right_inj "compose:").mp hname)
    | _ => exact absurd hdomain (by simp [domain])
  | singletonJob job =>
    cases d with
    | singletonJob job' =>
      exact congrArg singletonJob ((String.append_right_inj "singleton:").mp hname)
    | _ => exact absurd hdomain (by simp [domain])
  | migration =>
    cases d with
    | migration => rfl
    | _ => exact absurd hdomain (by simp [domain])

end Call

/-! ## The keys -/

section Keys

variable {Key ε : Type} {new : String → Except ε Key} {asStr : Key → String}

theorem asStr_of_run (hstores : ∀ text k, new text = .ok k → asStr k = text) {c : Call} {k : Key}
    (h : c.run new = some k) : asStr k = c.text := by
  rw [Call.run_eq] at h
  cases hnew : new c.text with
  | error error =>
    rw [hnew] at h
    cases h
  | ok key =>
    rw [hnew] at h
    cases h
    exact hstores c.text _ hnew

/-- With a colon in the revision, a job and its revision can be divided in two ways. -/
theorem jobExecution_colon (new : String → Except ε Key) (jobId middle revisionSha : String) :
    jobExecution new (jobId ++ ":" ++ middle) revisionSha =
      jobExecution new jobId (middle ++ ":" ++ revisionSha) := by
  simp only [jobExecution, String.append_assoc]

end Keys

/-- Keys are equal exactly when the calls are, where the key type keeps the text it
is given and compares by it. -/
theorem lock_identities_distinct {Key ε : Type} (new : String → Except ε Key)
    (asStr : Key → String) (eq : Key → Key → Bool)
    (hstores : ∀ text k, new text = .ok k → asStr k = text)
    (hcompares : ∀ k l, eq k l = true ↔ asStr k = asStr l)
    (c d : Call) (hc : c.PlainRevision) (hd : d.PlainRevision) (k l : Key)
    (hk : c.run new = some k) (hl : d.run new = some l) : eq k l = true ↔ c = d := by
  rw [hcompares, asStr_of_run hstores hk, asStr_of_run hstores hl]
  exact ⟨Call.text_inj hc hd, congrArg Call.text⟩

/-- Two revisions of a job whose id has a colon and a slash. -/
theorem lock_identities_distinct_revisions :
    let new : String → Except Unit String := fun text =>
      if text = "" then .error () else .ok text
    let c := Call.jobExecution "nightly/a:b" "c0ffee"
    let d := Call.jobExecution "nightly/a" "b0ffee"
    let k := "gha-indie-worker/jobs/execute:nightly/a:b:c0ffee"
    let l := "gha-indie-worker/jobs/execute:nightly/a:b0ffee"
    c.run new = some k ∧ d.run new = some l ∧ (k == l) = false := by
  intro new c d k l
  have hc : c.run new = some k := by decide
  have hd : d.run new = some l := by decide
  have hstores : ∀ text k, new text = .ok k → k = text := by
    intro text k hnew
    by_cases hempty : text = ""
    · rw [show new text = .error () from if_pos hempty] at hnew
      cases hnew
    · rw [show new text = .ok text from if_neg hempty] at hnew
      exact (Except.ok.inj hnew).symm
  have hiff := lock_identities_distinct new id (· == ·) hstores (fun _ _ => beq_iff_eq) c d
    (by decide : ':' ∉ "c0ffee".toList) (by decide : ':' ∉ "b0ffee".toList) k l hc hd
  have hne : c ≠ d := by decide
  exact ⟨hc, hd, Bool.eq_false_iff.mpr fun heq => hne (hiff.mp heq)⟩

end LockKeys
end IndieWorker
