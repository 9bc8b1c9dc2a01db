import IndieWorker.RuntimeConfig.Fields

/-!
# The core configuration

`src/config.rs`: the configuration of the core pool, which reads the write posture
from the same variable as the runtime configuration.  When the two readers agree on
it, and when they fail safe.
-/

namespace IndieWorker

open Decision Text

inductive DatabaseFlavor where
  | postgreSql
  | cockroachDb
  deriving DecidableEq, Repr

inductive CoreError where
  | invalidDatabaseUrl
  | schemaRevision (required found : String)
  | writesDisabled
  deriving DecidableEq, Repr

structure CoreConfig where
  databaseUrl : String
  flavor : DatabaseFlavor
  readOnly : Bool
  deriving DecidableEq, Repr

namespace CoreConfig

/-- Read the configuration from the environment.  A variable that is not Unicode
counts as unset. -/
def fromEnv (env : Lookup) : Except CoreError CoreConfig :=
  match env "GHA_INDIE_WORKER_DATABASE_URL" with
  | none => .error .invalidDatabaseUrl
  | some databaseUrl =>
    if !schemeOk databaseUrl then .error .invalidDatabaseUrl
    else .ok {
      databaseUrl := databaseUrl
      flavor :=
        if contains "cockroach".toList databaseUrl.toList then .cockroachDb else .postgreSql
      readOnly := env "GHA_INDIE_WORKER_DB_READ_ONLY" ≠ some "0" }

theorem fromEnv_readOnly {env : Lookup} {core : CoreConfig} (h : fromEnv env = .ok core) :
    core.readOnly = decide (env "GHA_INDIE_WORKER_DB_READ_ONLY" ≠ some "0") := by
  unfold fromEnv at h
  cases hurl : env "GHA_INDIE_WORKER_DATABASE_URL" with
  | none =>
    rw [hurl] at h
    cases h
  | some databaseUrl =>
    rw [hurl] at h
    dsimp only at h
    rw [refuse_eq_ok_iff] at h
    rw [← Except.ok.inj h.2]

end CoreConfig

namespace Posture

/-- The spellings of false that the runtime configuration is tested with. -/
def recognizedFalse (raw : String) : Bool := lowered (trimmed raw) ∈ ["0", "false", "no", "off"]

/-- Both readers see one posture, and a text that neither recognizes is read-only. -/
structure Same (value : Option String) (core runtime : Bool) : Prop where
  agree : core = runtime
  failSafe : ∀ raw, value = some raw → flagBool raw = false → recognizedFalse raw = false →
    core = true ∧ runtime = true

/-- The texts both readers take for the same thing. -/
def Shared (value : Option String) : Prop :=
  value = none ∨ ∃ raw, value = some raw ∧ (isBlank raw = true ∨ flagBool raw = true ∨ raw = "0")

/-- The posture the core reader takes from the text. -/
def ofCore (value : Option String) : Bool := value ≠ some "0"

/-- The posture the runtime reader takes from the text. -/
def ofRuntime (value : Option String) : Bool :=
  ((value.filter fun v => !isBlank v).map flagBool).getD true

theorem ofCore_zero : ofCore (some "0") = false := by decide

theorem ofCore_text {raw : String} (h : raw ≠ "0") : ofCore (some raw) = true :=
  decide_eq_true fun hsome => h (Option.some.inj hsome)

theorem ofRuntime_blank {raw : String} (h : isBlank raw = true) : ofRuntime (some raw) = true := by
  unfold ofRuntime
  rw [Option.filter_some, h, Bool.not_true, if_neg Bool.false_ne_true, Option.map_none,
    Option.getD_none]

theorem ofRuntime_text {raw : String} (h : isBlank raw = false) :
    ofRuntime (some raw) = flagBool raw := by
  unfold ofRuntime
  rw [Option.filter_some, h, Bool.not_false, if_pos rfl, Option.map_some, Option.getD_some]

theorem isBlank_zero : isBlank "0" = false := by decide +kernel

theorem flagBool_zero : flagBool "0" = false := by decide +kernel

theorem recognizedFalse_zero : recognizedFalse "0" = true := by decide +kernel

/-- The runtime reader takes a text for read-only when it is blank or a true spelling,
the core reader when it is not one digit. -/
theorem agree_iff (value : Option String) : ofCore value = ofRuntime value ↔ Shared value := by
  cases value with
  | none => exact iff_of_true rfl (Or.inl rfl)
  | some raw =>
    have hshared : Shared (some raw) ↔ isBlank raw = true ∨ flagBool raw = true ∨ raw = "0" := by
      unfold Shared
      simp
    rw [hshared]
    by_cases hzero : raw = "0"
    · rw [hzero, ofCore_zero, ofRuntime_text isBlank_zero, flagBool_zero]
      exact iff_of_true rfl (Or.inr (Or.inr rfl))
    · rw [ofCore_text hzero]
      by_cases hblank : isBlank raw = true
      · rw [ofRuntime_blank hblank]
        exact iff_of_true rfl (Or.inl hblank)
      · have htext : isBlank raw = false := by simpa using hblank
        rw [ofRuntime_text htext, htext]
        constructor
        · intro hflag
          exact Or.inr (Or.inl hflag.symm)
        · intro h
          rcases h with hfalse | hflag | hzero'
          · cases hfalse
          · exact hflag.symm
          · exact absurd hzero' hzero

/-- Where they agree, what neither recognizes is blank. -/
theorem failSafe {value : Option String} (h : Shared value) {raw : String}
    (hraw : value = some raw) (hflag : flagBool raw = false)
    (hfalse : recognizedFalse raw = false) : ofCore value = true ∧ ofRuntime value = true := by
  have hblank : isBlank raw = true := by
    rcases h with hnone | ⟨raw', hraw', hblank | hflag' | hzero⟩
    · rw [hnone] at hraw
      cases hraw
    · rw [hraw] at hraw'
      cases hraw'
      exact hblank
    · rw [hraw] at hraw'
      cases hraw'
      rw [hflag] at hflag'
      cases hflag'
    · rw [hraw, hzero] at hraw'
      cases hraw'
      rw [recognizedFalse_zero] at hfalse
      cases hfalse
  have hruntime : ofRuntime value = true := by
    rw [hraw]
    exact ofRuntime_blank hblank
  exact ⟨((agree_iff value).mpr h).trans hruntime, hruntime⟩

variable {env : Lookup} {core : CoreConfig} {runtime : RuntimeConfig}

/-- Two configurations read from one environment share a fail-safe posture exactly
when the variable is unset, blank, a true spelling or the digit 0. -/
theorem posture_iff (hcore : CoreConfig.fromEnv env = .ok core)
    (hruntime : RuntimeConfig.fromLookup env = .ok runtime) :
    Same (env "GHA_INDIE_WORKER_DB_READ_ONLY") core.readOnly runtime.databaseReadOnly ↔
      Shared (env "GHA_INDIE_WORKER_DB_READ_ONLY") := by
  have hcore' : core.readOnly = ofCore (env "GHA_INDIE_WORKER_DB_READ_ONLY") :=
    CoreConfig.fromEnv_readOnly hcore
  have hruntime' : runtime.databaseReadOnly = ofRuntime (env "GHA_INDIE_WORKER_DB_READ_ONLY") :=
    (RuntimeConfig.fromLookup_ok hruntime).databaseReadOnly
  rw [hcore', hruntime', ← agree_iff]
  constructor
  · intro hsame
    exact hsame.agree
  · intro hagree
    have hshared := (agree_iff _).mp hagree
    exact ⟨hagree, fun raw hraw hflag hfalse => failSafe hshared hraw hflag hfalse⟩

/-- The smallest environment that both readers accept, with a text for the posture. -/
def minimal (posture : String) : Lookup := fun name =>
  if name = "GHA_INDIE_WORKER_DATABASE_URL" then some "postgres://u:p@localhost/db"
  else if name = "GHA_INDIE_WORKER_DB_READ_ONLY" then some posture
  else none

/-- On an unrecognized word the runtime configuration is the writable one. -/
theorem maybe_splits : ¬ ∀ (env : Lookup) (core : CoreConfig) (runtime : RuntimeConfig),
    CoreConfig.fromEnv env = .ok core → RuntimeConfig.fromLookup env = .ok runtime →
      Same (env "GHA_INDIE_WORKER_DB_READ_ONLY") core.readOnly runtime.databaseReadOnly := by
  intro h
  have hcore : CoreConfig.fromEnv (minimal "maybe") = .ok {
      databaseUrl := "postgres://u:p@localhost/db"
      flavor := .postgreSql
      readOnly := true } := by decide +kernel
  have hruntime : RuntimeConfig.fromLookup (minimal "maybe") = .ok {
      databaseUrl := ⟨"postgres://u:p@localhost/db"⟩
      databaseReadOnly := false } := by decide +kernel
  exact absurd (h _ _ _ hcore hruntime).agree (by decide)

theorem posture_iff_of_yes : ∃ core runtime,
    CoreConfig.fromEnv (minimal " Yes ") = .ok core ∧
      RuntimeConfig.fromLookup (minimal " Yes ") = .ok runtime ∧
        Same (some " Yes ") core.readOnly runtime.databaseReadOnly := by
  have hcore : CoreConfig.fromEnv (minimal " Yes ") = .ok {
      databaseUrl := "postgres://u:p@localhost/db"
      flavor := .postgreSql
      readOnly := true } := by decide +kernel
  have hruntime : RuntimeConfig.fromLookup (minimal " Yes ") = .ok {
      databaseUrl := ⟨"postgres://u:p@localhost/db"⟩ } := by decide +kernel
  have hflag : flagBool " Yes " = true := by decide +kernel
  exact ⟨_, _, hcore, hruntime,
    (posture_iff hcore hruntime).mpr (Or.inr ⟨" Yes ", rfl, Or.inr (Or.inl hflag)⟩)⟩

end Posture
end IndieWorker
