import IndieWorker.Lib.Decision
import IndieWorker.Lib.Text
import IndieWorker.Locks
import IndieWorker.Protocol
import Mathlib.Data.List.Sort
import Mathlib.Data.String.Basic

/-!
# The runtime configuration

`src/runtime_config.rs`: the configuration every server shares, read from a lookup
of environment variables.  `usize` is 64 bits wide.
-/

namespace IndieWorker

open Decision Text

/-- A value that must never reach a log. -/
structure Secret where
  value : String
  deriving DecidableEq

namespace Secret

def isEmpty (s : Secret) : Bool := s.value = ""

/-- `Debug` of a secret. -/
def debug (s : Secret) : String := if s.value = "" then "Secret(<unset>)" else "Secret(<redacted>)"

end Secret

/-- A misconfiguration. -/
inductive ConfigError where
  | missing (name : String)
  | invalid (name reason : String)
  deriving DecidableEq, Repr

/-- `Display` of a misconfiguration. -/
def ConfigError.display : ConfigError → String
  | missing name => name ++ " is required"
  | invalid name reason => name ++ " is invalid: " ++ reason

/-- Which deployment a process is. -/
inductive Environment where
  | dev
  | staging
  | prod
  deriving DecidableEq, Repr

namespace Environment

def asStr : Environment → String
  | dev => "dev"
  | staging => "staging"
  | prod => "prod"

/-- `Debug` of an environment. -/
def debug : Environment → String
  | dev => "Dev"
  | staging => "Staging"
  | prod => "Prod"

def parse (value : String) : Except ConfigError Environment :=
  if value = "dev" ∨ value = "development" then .ok dev
  else if value = "staging" ∨ value = "stage" then .ok staging
  else if value = "prod" ∨ value = "production" then .ok prod
  else .error (.invalid "GHA_INDIE_WORKER_ENV" (value ++ " is not dev, staging or prod"))

end Environment

/-- The shared runtime configuration.  The request timeout is in seconds. -/
structure RuntimeConfig where
  serviceName : String := "gha-indie-worker"
  environment : Environment := .staging
  databaseUrl : Secret := ⟨""⟩
  databaseReadOnly : Bool := true
  databaseMaxConnections : UInt32 := 8
  httpBind : String := "0.0.0.0:8080"
  requestTimeout : UInt64 := 30
  trustedProxyHops : UInt8 := 1
  tcpBind : Option String := none
  wsPath : String := "/v1/ws"
  wsMaxFrameBytes : UInt64 := .ofNat Protocol.MAX_FRAME_BYTES
  natsUrl : Option String := none
  natsSubjectPrefix : String := "giw"
  sharedAuthBase : String := ""
  sharedAuthAudience : String := ""
  sharedAuthIntrospectSecret : Secret := ⟨""⟩
  locksFiduciaEnabled : Bool := false
  locksPgAdvisoryEnabled : Bool := false
  locksRequireFencing : Bool := false
  fiduciaBase : Option String := none
  fiduciaApiKey : Secret := ⟨""⟩
  otelEndpoint : Option String := none
  logLevel : String := "info"
  chatApiBase : Option String := none
  syncEnabled : Bool := false
  deriving DecidableEq

/-- Names whose values must never be logged. -/
def secretEnvVars : List String :=
  ["GHA_INDIE_WORKER_DATABASE_URL", "GHA_INDIE_WORKER_SHARED_AUTH_INTROSPECT_SECRET",
    "GHA_INDIE_WORKER_FIDUCIA_API_KEY"]

def flagBool (raw : String) : Bool := lowered (trimmed raw) ∈ ["1", "true", "yes", "on"]

abbrev Lookup : Type := String → Option String

/-- A variable that is set to something other than blanks. -/
def text (get : Lookup) (name : String) : Option String := (get name).filter fun v => !isBlank v

theorem text_isBlank {get : Lookup} {name value : String} (h : text get name = some value) :
    isBlank value = false := by
  have hfilter := (Option.filter_eq_some_iff.mp h).2
  simpa using hfilter

/-- A field is set from a value, unless it is refused. -/
abbrev Setter : Type := RuntimeConfig → String → Except ConfigError RuntimeConfig

/-- `if let Some(value) = text(name)`. -/
def ifSet (value : Option String) (set : Setter) (config : RuntimeConfig) :
    Except ConfigError RuntimeConfig :=
  match value with
  | some value => set config value
  | none => .ok config

/-- `value.parse()`, or the reason it is invalid. -/
def parseNumber (width : Nat) (name value reason : String) : Except ConfigError Nat :=
  match parseUnsigned width value with
  | some n => .ok n
  | none => .error (.invalid name (value ++ reason))

/-- The scheme of a database URL. -/
def schemeOk (url : String) : Bool :=
  startsWith "postgres://" url || startsWith "postgresql://" url

namespace RuntimeConfig

/-! ## Reading the variables, in the order of the source -/

def setServiceName : Setter := fun config value => .ok { config with serviceName := value }

def setEnvironment : Setter := fun config value => do
  let environment ← Environment.parse value
  .ok { config with environment := environment }

def readIdentity (get : Lookup) (config : RuntimeConfig) : Except ConfigError RuntimeConfig := do
  let config ← ifSet (text get "GHA_INDIE_WORKER_SERVICE_NAME") setServiceName config
  ifSet (text get "GHA_INDIE_WORKER_ENV") setEnvironment config

def setReadOnly : Setter := fun config value =>
  .ok { config with databaseReadOnly := flagBool value }

def setMaxConnections : Setter := fun config value => do
  let n ← parseNumber 32 "GHA_INDIE_WORKER_DB_MAX_CONNECTIONS" value " is not a positive integer"
  .ok { config with databaseMaxConnections := .ofNat n }

def readDatabase (get : Lookup) (config : RuntimeConfig) : Except ConfigError RuntimeConfig :=
  match text get "GHA_INDIE_WORKER_DATABASE_URL" with
  | none => .error (.missing "GHA_INDIE_WORKER_DATABASE_URL")
  | some url =>
    if !schemeOk url then
      .error (.invalid "GHA_INDIE_WORKER_DATABASE_URL"
        "must use the postgres or postgresql scheme")
    else do
      let config ← ifSet (text get "GHA_INDIE_WORKER_DB_READ_ONLY") setReadOnly
        { config with databaseUrl := ⟨url⟩ }
      ifSet (text get "GHA_INDIE_WORKER_DB_MAX_CONNECTIONS") setMaxConnections config

def setHttpBind : Setter := fun config value => .ok { config with httpBind := value }

def setRequestTimeout : Setter := fun config value => do
  let n ← parseNumber 64 "GHA_INDIE_WORKER_REQUEST_TIMEOUT_SECONDS" value
    " is not a whole number of seconds"
  .ok { config with requestTimeout := .ofNat n }

def setTrustedProxyHops : Setter := fun config value => do
  let n ← parseNumber 8 "GHA_INDIE_WORKER_TRUSTED_PROXY_HOPS" value
    " is not a small non-negative integer"
  .ok { config with trustedProxyHops := .ofNat n }

def readHttp (get : Lookup) (config : RuntimeConfig) : Except ConfigError RuntimeConfig := do
  let config ← ifSet (text get "GHA_INDIE_WORKER_HTTP_BIND") setHttpBind config
  let config ← ifSet (text get "GHA_INDIE_WORKER_REQUEST_TIMEOUT_SECONDS") setRequestTimeout config
  ifSet (text get "GHA_INDIE_WORKER_TRUSTED_PROXY_HOPS") setTrustedProxyHops config

def setWsPath : Setter := fun config value =>
  if !startsWith "/" value then .error (.invalid "GHA_INDIE_WORKER_WS_PATH" "must start with /")
  else .ok { config with wsPath := value }

def setWsMaxFrameBytes : Setter := fun config value => do
  let n ← parseNumber 64 "GHA_INDIE_WORKER_WS_MAX_FRAME_BYTES" value " is not a byte count"
  if n = 0 ∨ n > Protocol.MAX_FRAME_BYTES then
    .error (.invalid "GHA_INDIE_WORKER_WS_MAX_FRAME_BYTES"
      ("must be 1..=" ++ toString Protocol.MAX_FRAME_BYTES))
  else .ok { config with wsMaxFrameBytes := .ofNat n }

def readSockets (get : Lookup) (config : RuntimeConfig) : Except ConfigError RuntimeConfig := do
  let config ← ifSet (text get "GHA_INDIE_WORKER_WS_PATH") setWsPath
    { config with tcpBind := text get "GHA_INDIE_WORKER_TCP_BIND" }
  ifSet (text get "GHA_INDIE_WORKER_WS_MAX_FRAME_BYTES") setWsMaxFrameBytes config

def setNatsSubjectPrefix : Setter := fun config value =>
  .ok { config with natsSubjectPrefix := value }

def readNats (get : Lookup) (config : RuntimeConfig) : Except ConfigError RuntimeConfig :=
  ifSet (text get "GHA_INDIE_WORKER_NATS_SUBJECT_PREFIX") setNatsSubjectPrefix
    { config with natsUrl := text get "GHA_INDIE_WORKER_NATS_URL" }

def readSharedAuth (get : Lookup) (config : RuntimeConfig) : Except ConfigError RuntimeConfig :=
  .ok { config with
    sharedAuthBase := (text get "GHA_INDIE_WORKER_SHARED_AUTH_BASE").getD ""
    sharedAuthAudience := (text get "GHA_INDIE_WORKER_SHARED_AUTH_AUDIENCE").getD ""
    sharedAuthIntrospectSecret :=
      ⟨(text get "GHA_INDIE_WORKER_SHARED_AUTH_INTROSPECT_SECRET").getD ""⟩ }

/-- The locking settings, before they are checked. -/
def setCoordination (get : Lookup) (config : RuntimeConfig) : RuntimeConfig :=
  { config with
    locksFiduciaEnabled := (text get "GHA_INDIE_WORKER_LOCKS_FIDUCIA_ENABLED").any flagBool
    locksPgAdvisoryEnabled := (text get "GHA_INDIE_WORKER_LOCKS_PG_ADVISORY_ENABLED").any flagBool
    locksRequireFencing := (text get "GHA_INDIE_WORKER_LOCKS_REQUIRE_FENCING").any flagBool
    fiduciaBase := text get "GHA_INDIE_WORKER_FIDUCIA_BASE"
    fiduciaApiKey := ⟨(text get "GHA_INDIE_WORKER_FIDUCIA_API_KEY").getD ""⟩ }

/-- Fiducia locking without its credentials. -/
def lacksFiducia (config : RuntimeConfig) : Bool :=
  config.locksFiduciaEnabled && (config.fiduciaBase.isNone || config.fiduciaApiKey.isEmpty)

def readCoordination (get : Lookup) (config : RuntimeConfig) :
    Except ConfigError RuntimeConfig :=
  let config := setCoordination get config
  if config.lacksFiducia then
    .error (.invalid "GHA_INDIE_WORKER_LOCKS_FIDUCIA_ENABLED"
      ("fiducia locking needs GHA_INDIE_WORKER_FIDUCIA_BASE and " ++
        "GHA_INDIE_WORKER_FIDUCIA_API_KEY"))
  else .ok config

def setLogLevel : Setter := fun config value => .ok { config with logLevel := value }

def readObservability (get : Lookup) (config : RuntimeConfig) :
    Except ConfigError RuntimeConfig := do
  let config ← ifSet (text get "GHA_INDIE_WORKER_LOG_LEVEL") setLogLevel
    { config with otelEndpoint := text get "GHA_INDIE_WORKER_OTEL_ENDPOINT" }
  .ok { config with
    chatApiBase := text get "GHA_INDIE_WORKER_CHAT_API_BASE"
    syncEnabled := (text get "GHA_INDIE_WORKER_SYNC_ENABLED").any flagBool }

/-- Rules that only bind in production. -/
def checkEnvironmentPolicy (config : RuntimeConfig) : Except ConfigError RuntimeConfig :=
  if config.environment ≠ .prod then .ok config
  else if config.sharedAuthBase = "" then .error (.missing "GHA_INDIE_WORKER_SHARED_AUTH_BASE")
  else if config.sharedAuthAudience = "" then
    .error (.missing "GHA_INDIE_WORKER_SHARED_AUTH_AUDIENCE")
  else if config.sharedAuthIntrospectSecret.isEmpty then
    .error (.missing "GHA_INDIE_WORKER_SHARED_AUTH_INTROSPECT_SECRET")
  else .ok config

/-- Read the configuration from a lookup. -/
def fromLookup (get : Lookup) : Except ConfigError RuntimeConfig := do
  let config ← readIdentity get {}
  let config ← readDatabase get config
  let config ← readHttp get config
  let config ← readSockets get config
  let config ← readNats get config
  let config ← readSharedAuth get config
  let config ← readCoordination get config
  let config ← readObservability get config
  checkEnvironmentPolicy config

/-- The lock policy this configuration implies. -/
def lockPolicy (config : RuntimeConfig) : Locks.LockPolicy :=
  ⟨config.locksFiduciaEnabled, config.locksPgAdvisoryEnabled, config.locksRequireFencing⟩

/-! ## Printing -/

/-- `{:?}` of a text and of a duration, which the standard library decides. -/
structure Renderer where
  text : String → String
  seconds : UInt64 → String

def debugOption (render : Renderer) : Option String → String
  | none => "None"
  | some value => "Some(" ++ render.text value ++ ")"

/-- The fields of the derived `Debug`. -/
def debugFields (render : Renderer) (config : RuntimeConfig) : List (String × String) :=
  [("service_name", render.text config.serviceName),
    ("environment", config.environment.debug),
    ("database_url", config.databaseUrl.debug),
    ("database_read_only", toString config.databaseReadOnly),
    ("database_max_connections", toString config.databaseMaxConnections.toNat),
    ("http_bind", render.text config.httpBind),
    ("request_timeout", render.seconds config.requestTimeout),
    ("trusted_proxy_hops", toString config.trustedProxyHops.toNat),
    ("tcp_bind", debugOption render config.tcpBind),
    ("ws_path", render.text config.wsPath),
    ("ws_max_frame_bytes", toString config.wsMaxFrameBytes.toNat),
    ("nats_url", debugOption render config.natsUrl),
    ("nats_subject_prefix", render.text config.natsSubjectPrefix),
    ("shared_auth_base", render.text config.sharedAuthBase),
    ("shared_auth_audience", render.text config.sharedAuthAudience),
    ("shared_auth_introspect_secret", config.sharedAuthIntrospectSecret.debug),
    ("locks_fiducia_enabled", toString config.locksFiduciaEnabled),
    ("locks_pg_advisory_enabled", toString config.locksPgAdvisoryEnabled),
    ("locks_require_fencing", toString config.locksRequireFencing),
    ("fiducia_base", debugOption render config.fiduciaBase),
    ("fiducia_api_key", config.fiduciaApiKey.debug),
    ("otel_endpoint", debugOption render config.otelEndpoint),
    ("log_level", render.text config.logLevel),
    ("chat_api_base", debugOption render config.chatApiBase),
    ("sync_enabled", toString config.syncEnabled)]

def debug (render : Renderer) (config : RuntimeConfig) : String :=
  "RuntimeConfig \x7b " ++
    ", ".intercalate ((config.debugFields render).map fun field => field.1 ++ ": " ++ field.2) ++
      " \x7d"

/-- A redacted view, sorted by key. -/
def redactedSummary (config : RuntimeConfig) : List (String × String) :=
  [("service", config.serviceName), ("env", config.environment.asStr),
    ("httpBind", config.httpBind), ("tcpBind", config.tcpBind.getD "<disabled>"),
    ("wsPath", config.wsPath), ("dbReadOnly", toString config.databaseReadOnly),
    ("dbUrl", "<redacted>"), ("nats", config.natsUrl.getD "<disabled>"),
    ("locksFiducia", toString config.locksFiduciaEnabled),
    ("locksPgAdvisory", toString config.locksPgAdvisoryEnabled),
    ("syncEnabled", toString config.syncEnabled), ("logLevel", config.logLevel)].insertionSort
      fun a b => a.1 ≤ b.1

end RuntimeConfig

end IndieWorker
