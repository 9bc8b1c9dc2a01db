import IndieWorker.RuntimeConfig.Fields

/-!
# The documented policy

When a configuration that was read meets the whole policy that the reader and its
comments describe.
-/

namespace IndieWorker
namespace RuntimeConfig

open Text

/-- The policy.  What makes a database URL a plaintext one is left open. -/
structure Policy (plaintext : String → Bool) (config : RuntimeConfig) : Prop where
  maxConnections : 1 ≤ config.databaseMaxConnections.toNat
  wsPath : startsWith "/" config.wsPath = true
  wsMaxFrameBytes : 1 ≤ config.wsMaxFrameBytes.toNat ∧
    config.wsMaxFrameBytes.toNat ≤ Protocol.MAX_FRAME_BYTES
  fiducia : config.locksFiduciaEnabled = true →
    (∃ base, config.fiduciaBase = some base ∧ isBlank base = false) ∧
      isBlank config.fiduciaApiKey.value = false
  sharedAuth : config.environment = .prod → isBlank config.sharedAuthBase = false ∧
    isBlank config.sharedAuthAudience = false ∧
      isBlank config.sharedAuthIntrospectSecret.value = false
  encrypted : config.environment = .prod → plaintext config.databaseUrl.value = false
  coordinated : config.environment = .prod → config.lockPolicy.isCoordinated = true

/-- The variable names the production environment. -/
def NamesProd (value : Option String) : Prop := value = some "prod" ∨ value = some "production"

/-- What the lookup has to say for the policy to be met, over what the reader
checks. -/
structure Complies (plaintext : String → Bool) (get : Lookup) : Prop where
  maxConnections : ∀ v, text get "GHA_INDIE_WORKER_DB_MAX_CONNECTIONS" = some v →
    parseUnsigned 32 v ≠ some 0
  encrypted : NamesProd (text get "GHA_INDIE_WORKER_ENV") →
    ∀ url, text get "GHA_INDIE_WORKER_DATABASE_URL" = some url → plaintext url = false
  coordinated : NamesProd (text get "GHA_INDIE_WORKER_ENV") →
    (text get "GHA_INDIE_WORKER_LOCKS_FIDUCIA_ENABLED").any flagBool = true ∨
      (text get "GHA_INDIE_WORKER_LOCKS_PG_ADVISORY_ENABLED").any flagBool = true

theorem parse_eq_prod_iff (value : String) :
    Environment.parse value = .ok .prod ↔ value = "prod" ∨ value = "production" := by
  unfold Environment.parse
  by_cases hdev : value = "dev" ∨ value = "development"
  · rw [if_pos hdev]
    refine iff_of_false nofun fun hprod => ?_
    rcases hdev with rfl | rfl
    · exact absurd hprod (by decide)
    · exact absurd hprod (by decide)
  · rw [if_neg hdev]
    by_cases hstaging : value = "staging" ∨ value = "stage"
    · rw [if_pos hstaging]
      refine iff_of_false nofun fun hprod => ?_
      rcases hstaging with rfl | rfl
      · exact absurd hprod (by decide)
      · exact absurd hprod (by decide)
    · rw [if_neg hstaging]
      by_cases hprod : value = "prod" ∨ value = "production"
      · rw [if_pos hprod]
        exact iff_of_true rfl hprod
      · rw [if_neg hprod]
        exact iff_of_false nofun hprod

variable {get : Lookup} {config : RuntimeConfig}

theorem ReadFrom.prod_iff (h : ReadFrom get config) :
    config.environment = .prod ↔ NamesProd (text get "GHA_INDIE_WORKER_ENV") := by
  unfold NamesProd
  rcases h.environment with ⟨hnone, hdefault⟩ | ⟨v, hv, hparse⟩
  · rw [hnone, hdefault]
    exact iff_of_false nofun nofun
  · rw [hv, Option.some.injEq, Option.some.injEq, ← parse_eq_prod_iff, hparse, Except.ok.injEq]

/-- The one number of connections that is read and is no limit. -/
theorem ReadFrom.maxConnections_iff (h : ReadFrom get config) :
    1 ≤ config.databaseMaxConnections.toNat ↔
      ∀ v, text get "GHA_INDIE_WORKER_DB_MAX_CONNECTIONS" = some v →
        parseUnsigned 32 v ≠ some 0 := by
  rcases h.databaseMaxConnections with ⟨hnone, height⟩ | ⟨v, hv, hparse⟩
  · rw [hnone, height]
    exact iff_of_true (by omega) nofun
  · constructor
    · intro hpos w hw hzero
      rw [hv] at hw
      cases hw
      rw [hparse] at hzero
      have hzero := Option.some.inj hzero
      omega
    · intro hne
      have hzero : config.databaseMaxConnections.toNat ≠ 0 := by
        intro hzero
        rw [hzero] at hparse
        exact hne v hv hparse
      omega

/-- A variable that was read is not blank. -/
theorem isBlank_getD {name : String} (h : (text get name).getD "" ≠ "") :
    isBlank ((text get name).getD "") = false := by
  cases hv : text get name with
  | none =>
    rw [hv] at h
    exact absurd rfl h
  | some v => exact text_isBlank hv

theorem ReadFrom.fiduciaEnabled (h : ReadFrom get config) :
    config.locksFiduciaEnabled = (text get "GHA_INDIE_WORKER_LOCKS_FIDUCIA_ENABLED").any flagBool :=
  congrArg locksFiduciaEnabled h.coordination

theorem ReadFrom.pgAdvisoryEnabled (h : ReadFrom get config) :
    config.locksPgAdvisoryEnabled =
      (text get "GHA_INDIE_WORKER_LOCKS_PG_ADVISORY_ENABLED").any flagBool :=
  congrArg locksPgAdvisoryEnabled h.coordination

/-- Fiducia locking comes with a base URL and a key. -/
theorem ReadFrom.fiducia (h : ReadFrom get config) (henabled : config.locksFiduciaEnabled = true) :
    (∃ base, config.fiduciaBase = some base ∧ isBlank base = false) ∧
      isBlank config.fiduciaApiKey.value = false := by
  have hlacks := h.lacksFiducia
  unfold RuntimeConfig.lacksFiducia at hlacks
  rw [henabled, Bool.true_and, Bool.or_eq_false_iff] at hlacks
  obtain ⟨hbase, hkey⟩ := hlacks
  constructor
  · have hfield : config.fiduciaBase = text get "GHA_INDIE_WORKER_FIDUCIA_BASE" :=
      congrArg fiduciaBase h.coordination
    cases hv : text get "GHA_INDIE_WORKER_FIDUCIA_BASE" with
    | none =>
      rw [hfield, hv] at hbase
      cases hbase
    | some base => exact ⟨base, hfield.trans hv, text_isBlank hv⟩
  · have hfield : config.fiduciaApiKey.value =
        (text get "GHA_INDIE_WORKER_FIDUCIA_API_KEY").getD "" :=
      congrArg (fun c => Secret.value (fiduciaApiKey c)) h.coordination
    have hne : config.fiduciaApiKey.value ≠ "" := of_decide_eq_false hkey
    rw [hfield] at hne ⊢
    exact isBlank_getD hne

theorem ReadFrom.sharedAuth (h : ReadFrom get config) (hprod : config.environment = .prod) :
    isBlank config.sharedAuthBase = false ∧ isBlank config.sharedAuthAudience = false ∧
      isBlank config.sharedAuthIntrospectSecret.value = false := by
  obtain ⟨hbase, haudience, hsecret⟩ := h.policy hprod
  rw [h.sharedAuthBase] at hbase ⊢
  rw [h.sharedAuthAudience] at haudience ⊢
  rw [h.sharedAuthIntrospectSecret] at hsecret ⊢
  exact ⟨isBlank_getD hbase, isBlank_getD haudience, isBlank_getD hsecret⟩

theorem ReadFrom.coordinated_iff (h : ReadFrom get config) :
    config.lockPolicy.isCoordinated = true ↔
      (text get "GHA_INDIE_WORKER_LOCKS_FIDUCIA_ENABLED").any flagBool = true ∨
        (text get "GHA_INDIE_WORKER_LOCKS_PG_ADVISORY_ENABLED").any flagBool = true := by
  rw [← h.fiduciaEnabled, ← h.pgAdvisoryEnabled]
  show (config.locksFiduciaEnabled || config.locksPgAdvisoryEnabled) = true ↔ _
  rw [Bool.or_eq_true]

/-- A configuration that was read meets the policy exactly when its lookup does not
ask for no connections, nor for production on a plaintext database or without a
lock provider. -/
theorem policy_iff (plaintext : String → Bool) (hread : fromLookup get = .ok config) :
    Policy plaintext config ↔ Complies plaintext get := by
  have h := fromLookup_ok hread
  constructor
  · intro hpolicy
    refine ⟨h.maxConnections_iff.mp hpolicy.maxConnections, fun hprod url hurl => ?_,
      fun hprod => h.coordinated_iff.mp (hpolicy.coordinated (h.prod_iff.mpr hprod))⟩
    rw [h.databaseUrl] at hurl
    cases hurl
    exact hpolicy.encrypted (h.prod_iff.mpr hprod)
  · intro hcomplies
    exact {
      maxConnections := h.maxConnections_iff.mpr hcomplies.maxConnections
      wsPath := h.sockets.path
      wsMaxFrameBytes := h.sockets.frame
      fiducia := h.fiducia
      sharedAuth := h.sharedAuth
      encrypted := fun hprod => hcomplies.encrypted (h.prod_iff.mp hprod) _ h.databaseUrl
      coordinated := fun hprod =>
        h.coordinated_iff.mpr (hcomplies.coordinated (h.prod_iff.mp hprod)) }

/-- A database URL that asks for no encryption. -/
def disablesSsl (url : String) : Bool := contains "sslmode=disable".toList url.toList

/-- A production environment with shared auth, on a plaintext database, with no
connections and no lock provider. -/
def unguarded : Lookup := fun name =>
  if name = "GHA_INDIE_WORKER_ENV" then some "prod"
  else if name = "GHA_INDIE_WORKER_DATABASE_URL" then
    some "postgres://runtime@db.example/giw?sslmode=disable"
  else if name = "GHA_INDIE_WORKER_DB_MAX_CONNECTIONS" then some "0"
  else if name = "GHA_INDIE_WORKER_SHARED_AUTH_BASE" then some "https://auth.indiebuild.dev"
  else if name = "GHA_INDIE_WORKER_SHARED_AUTH_AUDIENCE" then some "api"
  else if name = "GHA_INDIE_WORKER_SHARED_AUTH_INTROSPECT_SECRET" then some "s"
  else none

/-- It is read, and misses the policy at three places. -/
theorem unguarded_accepted : ∃ config, fromLookup unguarded = .ok config ∧
    ¬ Policy disablesSsl config ∧ config.databaseMaxConnections = 0 ∧ config.environment = .prod ∧
      disablesSsl config.databaseUrl.value = true ∧ config.lockPolicy.isCoordinated = false := by
  have hread : fromLookup unguarded = .ok {
      environment := .prod
      databaseUrl := ⟨"postgres://runtime@db.example/giw?sslmode=disable"⟩
      databaseMaxConnections := 0
      sharedAuthBase := "https://auth.indiebuild.dev"
      sharedAuthAudience := "api"
      sharedAuthIntrospectSecret := ⟨"s"⟩ } := by decide +kernel
  refine ⟨_, hread, fun hpolicy => ?_, rfl, rfl, by decide +kernel, rfl⟩
  exact absurd (hpolicy.coordinated rfl) (by decide)

/-- The same environment with an encrypted database, the default number of
connections and advisory locks. -/
def guarded : Lookup := fun name =>
  if name = "GHA_INDIE_WORKER_DATABASE_URL" then
    some "postgres://runtime@db.example/giw?sslmode=verify-full"
  else if name = "GHA_INDIE_WORKER_DB_MAX_CONNECTIONS" then none
  else if name = "GHA_INDIE_WORKER_LOCKS_PG_ADVISORY_ENABLED" then some "on"
  else unguarded name

theorem policy_iff_of_guarded : ∃ config, fromLookup guarded = .ok config ∧
    Policy disablesSsl config := by
  have hread : fromLookup guarded = .ok {
      environment := .prod
      databaseUrl := ⟨"postgres://runtime@db.example/giw?sslmode=verify-full"⟩
      sharedAuthBase := "https://auth.indiebuild.dev"
      sharedAuthAudience := "api"
      sharedAuthIntrospectSecret := ⟨"s"⟩
      locksPgAdvisoryEnabled := true } := by decide +kernel
  refine ⟨_, hread, (policy_iff disablesSsl hread).mpr ⟨nofun, fun _ url hurl => ?_, fun _ => ?_⟩⟩
  · have hsome : text guarded "GHA_INDIE_WORKER_DATABASE_URL" =
        some "postgres://runtime@db.example/giw?sslmode=verify-full" := by decide +kernel
    rw [hsome] at hurl
    cases hurl
    decide +kernel
  · exact Or.inr (by decide +kernel)

end RuntimeConfig
end IndieWorker
