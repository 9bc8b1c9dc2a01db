import IndieWorker.RuntimeConfig.Fields

/-!
# Writing a configuration down

`ENV_VARS` names the variable of each field.  A configuration written to those
variables is read back as it was, and a reading looks at no other variable.
-/

namespace IndieWorker
namespace RuntimeConfig

open Decision Text

/-- Every environment variable that is read, with the field it fills. -/
def envVars : List (String × String) :=
  [("GHA_INDIE_WORKER_SERVICE_NAME", "service_name"),
    ("GHA_INDIE_WORKER_ENV", "environment"),
    ("GHA_INDIE_WORKER_DATABASE_URL", "database_url"),
    ("GHA_INDIE_WORKER_DB_READ_ONLY", "database_read_only"),
    ("GHA_INDIE_WORKER_DB_MAX_CONNECTIONS", "database_max_connections"),
    ("GHA_INDIE_WORKER_HTTP_BIND", "http_bind"),
    ("GHA_INDIE_WORKER_REQUEST_TIMEOUT_SECONDS", "request_timeout"),
    ("GHA_INDIE_WORKER_TRUSTED_PROXY_HOPS", "trusted_proxy_hops"),
    ("GHA_INDIE_WORKER_TCP_BIND", "tcp_bind"),
    ("GHA_INDIE_WORKER_WS_PATH", "ws_path"),
    ("GHA_INDIE_WORKER_WS_MAX_FRAME_BYTES", "ws_max_frame_bytes"),
    ("GHA_INDIE_WORKER_NATS_URL", "nats_url"),
    ("GHA_INDIE_WORKER_NATS_SUBJECT_PREFIX", "nats_subject_prefix"),
    ("GHA_INDIE_WORKER_SHARED_AUTH_BASE", "shared_auth_base"),
    ("GHA_INDIE_WORKER_SHARED_AUTH_AUDIENCE", "shared_auth_audience"),
    ("GHA_INDIE_WORKER_SHARED_AUTH_INTROSPECT_SECRET", "shared_auth_introspect_secret"),
    ("GHA_INDIE_WORKER_LOCKS_FIDUCIA_ENABLED", "locks_fiducia_enabled"),
    ("GHA_INDIE_WORKER_LOCKS_PG_ADVISORY_ENABLED", "locks_pg_advisory_enabled"),
    ("GHA_INDIE_WORKER_LOCKS_REQUIRE_FENCING", "locks_require_fencing"),
    ("GHA_INDIE_WORKER_FIDUCIA_BASE", "fiducia_base"),
    ("GHA_INDIE_WORKER_FIDUCIA_API_KEY", "fiducia_api_key"),
    ("GHA_INDIE_WORKER_OTEL_ENDPOINT", "otel_endpoint"),
    ("GHA_INDIE_WORKER_LOG_LEVEL", "log_level"),
    ("GHA_INDIE_WORKER_CHAT_API_BASE", "chat_api_base"),
    ("GHA_INDIE_WORKER_SYNC_ENABLED", "sync_enabled")]

/-- `env_names`, before it sorts them. -/
def envNames : List String := envVars.map Prod.fst

/-! ## Nothing else is read -/

/-- Readers that see the same at every variable of `ENV_VARS` read the same. -/
theorem fromLookup_congr {get get' : Lookup} (h : ∀ name ∈ envNames, get name = get' name) :
    fromLookup get = fromLookup get' := by
  have htext : ∀ name ∈ envNames, text get name = text get' name := fun name hname => by
    rw [text, text, h name hname]
  have hidentity : readIdentity get = readIdentity get' := by
    funext config
    rw [readIdentity, readIdentity, htext "GHA_INDIE_WORKER_SERVICE_NAME" (by decide),
      htext "GHA_INDIE_WORKER_ENV" (by decide)]
  have hdatabase : readDatabase get = readDatabase get' := by
    funext config
    rw [readDatabase, readDatabase, htext "GHA_INDIE_WORKER_DATABASE_URL" (by decide),
      htext "GHA_INDIE_WORKER_DB_READ_ONLY" (by decide),
      htext "GHA_INDIE_WORKER_DB_MAX_CONNECTIONS" (by decide)]
  have hhttp : readHttp get = readHttp get' := by
    funext config
    rw [readHttp, readHttp, htext "GHA_INDIE_WORKER_HTTP_BIND" (by decide),
      htext "GHA_INDIE_WORKER_REQUEST_TIMEOUT_SECONDS" (by decide),
      htext "GHA_INDIE_WORKER_TRUSTED_PROXY_HOPS" (by decide)]
  have hsockets : readSockets get = readSockets get' := by
    funext config
    rw [readSockets, readSockets, htext "GHA_INDIE_WORKER_TCP_BIND" (by decide),
      htext "GHA_INDIE_WORKER_WS_PATH" (by decide),
      htext "GHA_INDIE_WORKER_WS_MAX_FRAME_BYTES" (by decide)]
  have hnats : readNats get = readNats get' := by
    funext config
    rw [readNats, readNats, htext "GHA_INDIE_WORKER_NATS_URL" (by decide),
      htext "GHA_INDIE_WORKER_NATS_SUBJECT_PREFIX" (by decide)]
  have hauth : readSharedAuth get = readSharedAuth get' := by
    funext config
    rw [readSharedAuth, readSharedAuth, htext "GHA_INDIE_WORKER_SHARED_AUTH_BASE" (by decide),
      htext "GHA_INDIE_WORKER_SHARED_AUTH_AUDIENCE" (by decide),
      htext "GHA_INDIE_WORKER_SHARED_AUTH_INTROSPECT_SECRET" (by decide)]
  have hcoordination : readCoordination get = readCoordination get' := by
    funext config
    rw [readCoordination, readCoordination, setCoordination, setCoordination,
      htext "GHA_INDIE_WORKER_LOCKS_FIDUCIA_ENABLED" (by decide),
      htext "GHA_INDIE_WORKER_LOCKS_PG_ADVISORY_ENABLED" (by decide),
      htext "GHA_INDIE_WORKER_LOCKS_REQUIRE_FENCING" (by decide),
      htext "GHA_INDIE_WORKER_FIDUCIA_BASE" (by decide),
      htext "GHA_INDIE_WORKER_FIDUCIA_API_KEY" (by decide)]
  have hobservability : readObservability get = readObservability get' := by
    funext config
    rw [readObservability, readObservability, htext "GHA_INDIE_WORKER_OTEL_ENDPOINT" (by decide),
      htext "GHA_INDIE_WORKER_LOG_LEVEL" (by decide),
      htext "GHA_INDIE_WORKER_CHAT_API_BASE" (by decide),
      htext "GHA_INDIE_WORKER_SYNC_ENABLED" (by decide)]
  rw [fromLookup, fromLookup, hidentity, hdatabase, hhttp, hsockets, hnats, hauth, hcoordination,
    hobservability]

/-! ## What can be configured -/

/-- A text that a variable can hold. -/
abbrev Worded (value : String) : Prop := isBlank value = false

/-- A text that is set by a variable or left empty. -/
def WordedOrEmpty (value : String) : Prop := value = "" ∨ Worded value

/-- The fields that no policy is about. -/
structure Readable (config : RuntimeConfig) : Prop where
  serviceName : Worded config.serviceName
  httpBind : Worded config.httpBind
  tcpBind : ∀ v ∈ config.tcpBind, Worded v
  sockets : SocketsOk config.wsPath config.wsMaxFrameBytes
  natsUrl : ∀ v ∈ config.natsUrl, Worded v
  natsSubjectPrefix : Worded config.natsSubjectPrefix
  sharedAuthBase : WordedOrEmpty config.sharedAuthBase
  sharedAuthAudience : WordedOrEmpty config.sharedAuthAudience
  sharedAuthIntrospectSecret : WordedOrEmpty config.sharedAuthIntrospectSecret.value
  fiduciaBase : ∀ v ∈ config.fiduciaBase, Worded v
  fiduciaApiKey : WordedOrEmpty config.fiduciaApiKey.value
  otelEndpoint : ∀ v ∈ config.otelEndpoint, Worded v
  logLevel : Worded config.logLevel
  chatApiBase : ∀ v ∈ config.chatApiBase, Worded v

/-- A configuration that some environment gives. -/
structure Admissible (config : RuntimeConfig) : Prop where
  readable : Readable config
  databaseUrl : Worded config.databaseUrl.value ∧ schemeOk config.databaseUrl.value = true
  fiducia : config.lacksFiducia = false
  policy : config.environment = .prod → SharedAuthSet config

theorem readable_default : Readable {} where
  serviceName := by decide +kernel
  httpBind := by decide +kernel
  tcpBind := nofun
  sockets := socketsOk_default
  natsUrl := nofun
  natsSubjectPrefix := by decide +kernel
  sharedAuthBase := .inl rfl
  sharedAuthAudience := .inl rfl
  sharedAuthIntrospectSecret := .inl rfl
  fiduciaBase := nofun
  fiduciaApiKey := .inl rfl
  otelEndpoint := nofun
  logLevel := by decide +kernel
  chatApiBase := nofun

section Text

variable {get : Lookup} {name : String}

theorem worded_text : ∀ v ∈ text get name, Worded v := fun _ hv => text_isBlank hv

theorem wordedOrEmpty_text : WordedOrEmpty ((text get name).getD "") := by
  cases hv : text get name with
  | none => exact .inl rfl
  | some v => exact .inr (text_isBlank hv)

/-- What a setter keeps, a variable that is set or not keeps. -/
theorem Readable.ifSet {set : Setter} {config config' : RuntimeConfig} (hconfig : Readable config)
    (hset : ∀ v c, Worded v → set config v = .ok c → Readable c)
    (h : ifSet (text get name) set config = .ok config') : Readable config' := by
  rcases ifSet_ok h with ⟨_, rfl⟩ | ⟨v, hv, hok⟩
  · exact hconfig
  · exact hset v config' (text_isBlank hv) hok

end Text

section Readers

variable {get : Lookup} {config config' : RuntimeConfig}

theorem readIdentity_readable (hconfig : Readable config)
    (h : readIdentity get config = .ok config') : Readable config' := by
  unfold readIdentity at h
  rw [bind_eq_ok_iff] at h
  obtain ⟨named, hname, h⟩ := h
  have hnamed := hconfig.ifSet (fun v c hv hok => by
    cases hok
    exact { hconfig with serviceName := hv }) hname
  refine hnamed.ifSet (fun v c hv hok => ?_) h
  obtain ⟨environment, rfl⟩ := @parsed_frame _ _ _ id (fun environment => { named with
    environment := environment }) _ hok
  exact { hnamed with }

theorem readDatabase_readable (hconfig : Readable config)
    (h : readDatabase get config = .ok config') : Readable config' := by
  obtain ⟨url, n, rfl, -⟩ := readDatabase_ok h
  exact { hconfig with }

theorem readHttp_readable (hconfig : Readable config) (h : readHttp get config = .ok config') :
    Readable config' := by
  unfold readHttp at h
  rw [bind_eq_ok_iff] at h
  obtain ⟨bound, hbind, h⟩ := h
  rw [bind_eq_ok_iff] at h
  obtain ⟨timed, htimeout, h⟩ := h
  have hbound := hconfig.ifSet (fun v c hv hok => by
    cases hok
    exact { hconfig with httpBind := hv }) hbind
  have htimed := hbound.ifSet (fun v c hv hok => by
    obtain ⟨timeout, rfl⟩ := @parsed_frame _ _ _ UInt64.ofNat (fun timeout => { bound with
      requestTimeout := timeout }) _ hok
    exact { hbound with }) htimeout
  refine htimed.ifSet (fun v c hv hok => ?_) h
  obtain ⟨hops, rfl⟩ := @parsed_frame _ _ _ UInt8.ofNat (fun hops => { timed with
    trustedProxyHops := hops }) _ hok
  exact { htimed with }

theorem readSockets_readable (hconfig : Readable config)
    (h : readSockets get config = .ok config') : Readable config' := by
  obtain ⟨tcpBind, wsPath, wsMaxFrameBytes, hfields, hok⟩ := readSockets_ok hconfig.sockets h
  unfold readSockets at h
  rw [bind_eq_ok_iff] at h
  obtain ⟨pathed, hpath, h⟩ := h
  have hpathed : ∃ a, pathed = { config with
      tcpBind := text get "GHA_INDIE_WORKER_TCP_BIND", wsPath := a } :=
    ifSet_frame config.wsPath rfl (fun v c hset => by
      unfold setWsPath at hset
      rw [refuse_eq_ok_iff] at hset
      exact ⟨v, (Except.ok.inj hset.2).symm⟩) hpath
  obtain ⟨path, rfl⟩ := hpathed
  have hframe : ∃ a, config' = { config with
      tcpBind := text get "GHA_INDIE_WORKER_TCP_BIND", wsPath := path, wsMaxFrameBytes := a } :=
    ifSet_frame config.wsMaxFrameBytes rfl (fun v c hset => by
      unfold setWsMaxFrameBytes at hset
      rw [bind_eq_ok_iff] at hset
      obtain ⟨n, -, hset⟩ := hset
      rw [refuse_eq_ok_iff] at hset
      exact ⟨.ofNat n, (Except.ok.inj hset.2).symm⟩) h
  obtain ⟨bytes, rfl⟩ := hframe
  have hwritten : SocketsOk path bytes := by
    have hpath : path = wsPath := congrArg RuntimeConfig.wsPath hfields
    have hbytes : bytes = wsMaxFrameBytes := congrArg RuntimeConfig.wsMaxFrameBytes hfields
    rw [hpath, hbytes]
    exact hok
  exact { hconfig with tcpBind := worded_text, sockets := hwritten }

theorem readNats_readable (hconfig : Readable config) (h : readNats get config = .ok config') :
    Readable config' := by
  have hurl : Readable { config with natsUrl := text get "GHA_INDIE_WORKER_NATS_URL" } :=
    { hconfig with natsUrl := worded_text }
  refine hurl.ifSet (fun v c hv hok => ?_) h
  cases hok
  exact { hurl with natsSubjectPrefix := hv }

theorem readSharedAuth_readable (hconfig : Readable config)
    (h : readSharedAuth get config = .ok config') : Readable config' := by
  cases h
  exact { hconfig with
    sharedAuthBase := wordedOrEmpty_text
    sharedAuthAudience := wordedOrEmpty_text
    sharedAuthIntrospectSecret := wordedOrEmpty_text }

theorem readCoordination_readable (hconfig : Readable config)
    (h : readCoordination get config = .ok config') : Readable config' := by
  rw [(readCoordination_ok h).1]
  exact { hconfig with fiduciaBase := worded_text, fiduciaApiKey := wordedOrEmpty_text }

theorem readObservability_readable (hconfig : Readable config)
    (h : readObservability get config = .ok config') : Readable config' := by
  unfold readObservability at h
  rw [bind_eq_ok_iff] at h
  obtain ⟨logged, hlog, h⟩ := h
  have hotel : Readable { config with otelEndpoint := text get "GHA_INDIE_WORKER_OTEL_ENDPOINT" } :=
    { hconfig with otelEndpoint := worded_text }
  have hlogged := hotel.ifSet (fun v c hv hok => by
    cases hok
    exact { hotel with logLevel := hv }) hlog
  cases h
  exact { hlogged with chatApiBase := worded_text }

/-- Every configuration that is read is admissible. -/
theorem admissible_of_read (h : fromLookup get = .ok config) : Admissible config := by
  have hread := fromLookup_ok h
  unfold fromLookup at h
  simp only [bind_eq_ok_iff] at h
  obtain ⟨c₁, h₁, c₂, h₂, c₃, h₃, c₄, h₄, c₅, h₅, c₆, h₆, c₇, h₇, c₈, h₈, h₉⟩ := h
  obtain ⟨url, -, -, hurl, hscheme, -⟩ := readDatabase_ok h₂
  rw [hread.databaseUrl, Option.some.injEq] at hurl
  have hreadable := readObservability_readable (readCoordination_readable (readSharedAuth_readable
    (readNats_readable (readSockets_readable (readHttp_readable (readDatabase_readable
      (readIdentity_readable readable_default h₁) h₂) h₃) h₄) h₅) h₆) h₇) h₈
  rw [← (checkEnvironmentPolicy_ok h₉).1] at hreadable
  exact ⟨hreadable, ⟨text_isBlank hread.databaseUrl, hurl ▸ hscheme⟩, hread.lacksFiducia,
    hread.policy⟩

end Readers

/-! ## Writing -/

def writtenBool (value : Bool) : String := if value then "true" else "false"

/-- The variables of `ENV_VARS` with the text that says each field. -/
def writtenVars (config : RuntimeConfig) : List (String × String × Option String) :=
  [("GHA_INDIE_WORKER_SERVICE_NAME", "service_name", some config.serviceName),
    ("GHA_INDIE_WORKER_ENV", "environment", some config.environment.asStr),
    ("GHA_INDIE_WORKER_DATABASE_URL", "database_url", some config.databaseUrl.value),
    ("GHA_INDIE_WORKER_DB_READ_ONLY", "database_read_only",
      some (writtenBool config.databaseReadOnly)),
    ("GHA_INDIE_WORKER_DB_MAX_CONNECTIONS", "database_max_connections",
      some (toString config.databaseMaxConnections.toNat)),
    ("GHA_INDIE_WORKER_HTTP_BIND", "http_bind", some config.httpBind),
    ("GHA_INDIE_WORKER_REQUEST_TIMEOUT_SECONDS", "request_timeout",
      some (toString config.requestTimeout.toNat)),
    ("GHA_INDIE_WORKER_TRUSTED_PROXY_HOPS", "trusted_proxy_hops",
      some (toString config.trustedProxyHops.toNat)),
    ("GHA_INDIE_WORKER_TCP_BIND", "tcp_bind", config.tcpBind),
    ("GHA_INDIE_WORKER_WS_PATH", "ws_path", some config.wsPath),
    ("GHA_INDIE_WORKER_WS_MAX_FRAME_BYTES", "ws_max_frame_bytes",
      some (toString config.wsMaxFrameBytes.toNat)),
    ("GHA_INDIE_WORKER_NATS_URL", "nats_url", config.natsUrl),
    ("GHA_INDIE_WORKER_NATS_SUBJECT_PREFIX", "nats_subject_prefix",
      some config.natsSubjectPrefix),
    ("GHA_INDIE_WORKER_SHARED_AUTH_BASE", "shared_auth_base", some config.sharedAuthBase),
    ("GHA_INDIE_WORKER_SHARED_AUTH_AUDIENCE", "shared_auth_audience",
      some config.sharedAuthAudience),
    ("GHA_INDIE_WORKER_SHARED_AUTH_INTROSPECT_SECRET", "shared_auth_introspect_secret",
      some config.sharedAuthIntrospectSecret.value),
    ("GHA_INDIE_WORKER_LOCKS_FIDUCIA_ENABLED", "locks_fiducia_enabled",
      some (writtenBool config.locksFiduciaEnabled)),
    ("GHA_INDIE_WORKER_LOCKS_PG_ADVISORY_ENABLED", "locks_pg_advisory_enabled",
      some (writtenBool config.locksPgAdvisoryEnabled)),
    ("GHA_INDIE_WORKER_LOCKS_REQUIRE_FENCING", "locks_require_fencing",
      some (writtenBool config.locksRequireFencing)),
    ("GHA_INDIE_WORKER_FIDUCIA_BASE", "fiducia_base", config.fiduciaBase),
    ("GHA_INDIE_WORKER_FIDUCIA_API_KEY", "fiducia_api_key", some config.fiduciaApiKey.value),
    ("GHA_INDIE_WORKER_OTEL_ENDPOINT", "otel_endpoint", config.otelEndpoint),
    ("GHA_INDIE_WORKER_LOG_LEVEL", "log_level", some config.logLevel),
    ("GHA_INDIE_WORKER_CHAT_API_BASE", "chat_api_base", config.chatApiBase),
    ("GHA_INDIE_WORKER_SYNC_ENABLED", "sync_enabled", some (writtenBool config.syncEnabled))]

/-- The environment that says a configuration. -/
def written (config : RuntimeConfig) : Lookup := fun name =>
  ((writtenVars config).lookup name).bind Prod.snd

theorem writtenVars_table (config : RuntimeConfig) :
    (writtenVars config).map (fun v => (v.1, v.2.1)) = envVars := rfl

theorem parseUnsigned_toString {width n : Nat} (h : n < 2 ^ width) :
    parseUnsigned width (toString n) = some n := by
  have hlist : (toString n).toList = Nat.toDigits 10 n := Nat.toList_repr
  have hdigit : ∀ c ∈ Nat.toDigits 10 n, c.isDigit = true := fun c hc =>
    Nat.isDigit_of_mem_toDigits (by decide) (by decide) hc
  have hvalue : digitsValue (Nat.toDigits 10 n) = n := by
    have hfold := Nat.ofDigitChars_ten_toDigits (n := n)
    rw [Nat.ofDigitChars_eq_foldl] at hfold
    exact hfold
  have hparse : parseDigits width (Nat.toDigits 10 n) = some n := by
    rw [parseDigits, hvalue, if_pos ⟨Nat.toDigits_ne_nil, List.all_eq_true.mpr hdigit, h⟩]
  unfold parseUnsigned
  rw [hlist]
  split
  · next rest hplus =>
    have hmem : '+' ∈ Nat.toDigits 10 n := by
      rw [hplus]
      exact List.mem_cons_self
    exact absurd (hdigit '+' hmem) (by decide)
  · exact hparse

theorem worded_toString (n : Nat) : Worded (toString n) := by
  rw [Worded, Bool.eq_false_iff, ne_eq, isBlank_iff]
  intro hblank
  have hlist : (toString n).toList = Nat.toDigits 10 n := Nat.toList_repr
  rw [hlist] at hblank
  obtain ⟨c, hc⟩ := List.exists_mem_of_ne_nil _ (Nat.toDigits_ne_nil (n := n) (b := 10))
  have hdigit : c.isDigit = true := Nat.isDigit_of_mem_toDigits (by decide) (by decide) hc
  have hsolid : isWhitespace c = false :=
    not_isWhitespace_of_isAlphanum (by rw [Char.isAlphanum, hdigit, Bool.or_true])
  rw [hblank c hc] at hsolid
  cases hsolid

theorem worded_writtenBool (value : Bool) : Worded (writtenBool value) := by
  cases value with
  | false => decide +kernel
  | true => decide +kernel

theorem flagBool_writtenBool (value : Bool) : flagBool (writtenBool value) = value := by
  cases value with
  | false => decide +kernel
  | true => decide +kernel

theorem worded_of_slash {value : String} (h : startsWith "/" value = true) : Worded value := by
  rw [Worded, Bool.eq_false_iff, ne_eq, isBlank_iff]
  intro hblank
  obtain ⟨rest, hrest⟩ := List.isPrefixOf_iff_prefix.mp h
  have hslash : '/' ∈ value.toList := by
    rw [← hrest]
    exact List.mem_append_left _ (by decide)
  exact absurd (hblank '/' hslash) (by decide)

/-! ## Reading what was written -/

theorem lookup_of_getElem? {α : Type} {l : List (String × α)} (hnodup : (l.map Prod.fst).Nodup)
    {i : Nat} {name : String} {a : α} (h : l[i]? = some (name, a)) : l.lookup name = some a := by
  induction l generalizing i with
  | nil => cases h
  | cons p l ih =>
    rw [List.map_cons, List.nodup_cons] at hnodup
    cases i with
    | zero =>
      cases h
      exact List.lookup_cons_self
    | succ i =>
      rw [List.getElem?_cons_succ] at h
      have hmem : name ∈ l.map Prod.fst := List.mem_map.mpr ⟨_, List.mem_of_getElem? h, rfl⟩
      have hne : (name == p.1) = false := beq_eq_false_iff_ne.mpr fun heq => hnodup.1 (heq ▸ hmem)
      obtain ⟨key, value⟩ := p
      rw [List.lookup_cons, hne]
      exact ih hnodup.2 h

section Written

variable {config : RuntimeConfig} {name field : String}

theorem written_of_getElem? (i : Nat) {value : Option String}
    (h : (writtenVars config)[i]? = some (name, field, value)) : written config name = value := by
  have hnames : ((writtenVars config).map Prod.fst).Nodup := by
    show envNames.Nodup
    decide
  rw [written, lookup_of_getElem? hnames h]
  rfl

theorem text_written (i : Nat) {value : Option String}
    (h : (writtenVars config)[i]? = some (name, field, value)) (hvalue : ∀ v ∈ value, Worded v) :
    text (written config) name = value := by
  rw [text, written_of_getElem? i h]
  cases value with
  | none => rfl
  | some v =>
    refine Option.filter_some_pos ?_
    rw [hvalue v rfl]
    rfl

theorem text_written_some (i : Nat) {value : String}
    (h : (writtenVars config)[i]? = some (name, field, some value)) (hvalue : Worded value) :
    text (written config) name = some value :=
  text_written i h fun v hv => by
    rw [← Option.some.inj hv]
    exact hvalue

theorem getD_text_written (i : Nat) {value : String}
    (h : (writtenVars config)[i]? = some (name, field, some value)) (hvalue : WordedOrEmpty value) :
    (text (written config) name).getD "" = value := by
  rcases hvalue with hempty | hworded
  · have hblank : isBlank "" = true := by decide +kernel
    rw [text, written_of_getElem? i h, hempty, Option.filter_some_neg (by rw [hblank]; decide)]
    rfl
  · rw [text_written_some i h hworded, Option.getD_some]

theorem any_flagBool_written (i : Nat) {value : Bool}
    (h : (writtenVars config)[i]? = some (name, field, some (writtenBool value))) :
    (text (written config) name).any flagBool = value := by
  rw [text_written_some i h (worded_writtenBool value), Option.any_some, flagBool_writtenBool]

end Written

/-! ## The round trip -/

theorem parse_asStr (environment : Environment) :
    Environment.parse environment.asStr = .ok environment := by
  cases environment with
  | dev => decide
  | staging => decide
  | prod => decide

theorem worded_asStr (environment : Environment) : Worded environment.asStr := by
  cases environment with
  | dev => decide +kernel
  | staging => decide +kernel
  | prod => decide +kernel

theorem parseNumber_toString {width n : Nat} (h : n < 2 ^ width) (name reason : String) :
    parseNumber width name (toString n) reason = .ok n := by
  rw [parseNumber, parseUnsigned_toString h]

section Back

variable {config : RuntimeConfig} (base : RuntimeConfig)

theorem readIdentity_written (hr : Readable config) :
    readIdentity (written config) base = .ok { base with
      serviceName := config.serviceName
      environment := config.environment } := by
  rw [readIdentity, text_written_some 0 rfl hr.serviceName,
    text_written_some 1 rfl (worded_asStr config.environment)]
  show setEnvironment _ config.environment.asStr = _
  rw [setEnvironment, parse_asStr]
  rfl

theorem readDatabase_written (hworded : Worded config.databaseUrl.value)
    (hscheme : schemeOk config.databaseUrl.value = true) :
    readDatabase (written config) base = .ok { base with
      databaseUrl := config.databaseUrl
      databaseReadOnly := config.databaseReadOnly
      databaseMaxConnections := config.databaseMaxConnections } := by
  rw [readDatabase, text_written_some 2 rfl hworded,
    text_written_some 3 rfl (worded_writtenBool _), text_written_some 4 rfl (worded_toString _)]
  dsimp only
  rw [hscheme, if_neg (by decide), ifSet, setReadOnly, flagBool_writtenBool, ok_bind, ifSet,
    setMaxConnections, parseNumber_toString config.databaseMaxConnections.toNat_lt, ok_bind,
    UInt32.ofNat_toNat]

theorem readHttp_written (hr : Readable config) :
    readHttp (written config) base = .ok { base with
      httpBind := config.httpBind
      requestTimeout := config.requestTimeout
      trustedProxyHops := config.trustedProxyHops } := by
  rw [readHttp, text_written_some 5 rfl hr.httpBind, text_written_some 6 rfl (worded_toString _),
    text_written_some 7 rfl (worded_toString _), ifSet, setHttpBind, ok_bind, ifSet,
    setRequestTimeout, parseNumber_toString config.requestTimeout.toNat_lt, ok_bind, ok_bind, ifSet,
    setTrustedProxyHops, parseNumber_toString config.trustedProxyHops.toNat_lt, ok_bind,
    UInt64.ofNat_toNat, UInt8.ofNat_toNat]

theorem readSockets_written (hr : Readable config) :
    readSockets (written config) base = .ok { base with
      tcpBind := config.tcpBind
      wsPath := config.wsPath
      wsMaxFrameBytes := config.wsMaxFrameBytes } := by
  obtain ⟨hpath, hlow, hhigh⟩ := hr.sockets
  rw [readSockets, text_written 8 rfl hr.tcpBind, text_written_some 9 rfl (worded_of_slash hpath),
    text_written_some 10 rfl (worded_toString _), ifSet, setWsPath, hpath, if_neg (by decide),
    ok_bind, ifSet, setWsMaxFrameBytes, parseNumber_toString config.wsMaxFrameBytes.toNat_lt,
    ok_bind, if_neg (by omega), UInt64.ofNat_toNat]

theorem readNats_written (hr : Readable config) :
    readNats (written config) base = .ok { base with
      natsUrl := config.natsUrl
      natsSubjectPrefix := config.natsSubjectPrefix } := by
  rw [readNats, text_written 11 rfl hr.natsUrl, text_written_some 12 rfl hr.natsSubjectPrefix]
  rfl

theorem readSharedAuth_written (hr : Readable config) :
    readSharedAuth (written config) base = .ok { base with
      sharedAuthBase := config.sharedAuthBase
      sharedAuthAudience := config.sharedAuthAudience
      sharedAuthIntrospectSecret := config.sharedAuthIntrospectSecret } := by
  rw [readSharedAuth, getD_text_written 13 rfl hr.sharedAuthBase,
    getD_text_written 14 rfl hr.sharedAuthAudience,
    getD_text_written 15 rfl hr.sharedAuthIntrospectSecret]

theorem readCoordination_written (hr : Readable config) (hfiducia : config.lacksFiducia = false) :
    readCoordination (written config) base = .ok { base with
      locksFiduciaEnabled := config.locksFiduciaEnabled
      locksPgAdvisoryEnabled := config.locksPgAdvisoryEnabled
      locksRequireFencing := config.locksRequireFencing
      fiduciaBase := config.fiduciaBase
      fiduciaApiKey := config.fiduciaApiKey } := by
  have hset : setCoordination (written config) base = { base with
      locksFiduciaEnabled := config.locksFiduciaEnabled
      locksPgAdvisoryEnabled := config.locksPgAdvisoryEnabled
      locksRequireFencing := config.locksRequireFencing
      fiduciaBase := config.fiduciaBase
      fiduciaApiKey := config.fiduciaApiKey } := by
    rw [setCoordination, any_flagBool_written 16 rfl, any_flagBool_written 17 rfl,
      any_flagBool_written 18 rfl, text_written 19 rfl hr.fiduciaBase,
      getD_text_written 20 rfl hr.fiduciaApiKey]
  rw [readCoordination, hset]
  exact if_neg (by
    rw [Bool.not_eq_true]
    exact hfiducia)

theorem readObservability_written (hr : Readable config) :
    readObservability (written config) base = .ok { base with
      otelEndpoint := config.otelEndpoint
      logLevel := config.logLevel
      chatApiBase := config.chatApiBase
      syncEnabled := config.syncEnabled } := by
  rw [readObservability, text_written 21 rfl hr.otelEndpoint,
    text_written_some 22 rfl hr.logLevel, text_written 23 rfl hr.chatApiBase,
    any_flagBool_written 24 rfl]
  rfl

theorem checkEnvironmentPolicy_of {config : RuntimeConfig}
    (hpolicy : config.environment = .prod → SharedAuthSet config) :
    checkEnvironmentPolicy config = .ok config := by
  unfold checkEnvironmentPolicy
  by_cases hprod : config.environment ≠ .prod
  · rw [if_pos hprod]
  · obtain ⟨hbase, haudience, hsecret⟩ := hpolicy (not_not.mp hprod)
    have hset : ¬ config.sharedAuthIntrospectSecret.isEmpty = true := fun hempty =>
      hsecret (of_decide_eq_true hempty)
    rw [if_neg hprod, if_neg hbase, if_neg haudience, if_neg hset]

end Back

/-- The readers, one after the other, write the fields back. -/
theorem read_written {config : RuntimeConfig} (h : Admissible config) :
    fromLookup (written config) = .ok config := by
  have hr := h.readable
  rw [fromLookup, readIdentity_written _ hr, ok_bind,
    readDatabase_written _ h.databaseUrl.1 h.databaseUrl.2, ok_bind, readHttp_written _ hr, ok_bind,
    readSockets_written _ hr, ok_bind, readNats_written _ hr, ok_bind, readSharedAuth_written _ hr,
    ok_bind, readCoordination_written _ hr h.fiducia, ok_bind, readObservability_written _ hr,
    ok_bind]
  exact checkEnvironmentPolicy_of h.policy

/-- A reading looks at the variables of `ENV_VARS` and no other.  Whatever environment
a configuration was read from, writing its fields to those variables gives an
environment that reads as the same; and the configurations that come back as they were
written are those that some environment gives. -/
theorem written_round_trip :
    (∀ get get' : Lookup, (∀ name ∈ envNames, get name = get' name) →
      fromLookup get = fromLookup get') ∧
    (∀ get config, fromLookup get = .ok config → fromLookup (written config) = .ok config) ∧
    (∀ config, fromLookup (written config) = .ok config ↔ Admissible config) := by
  refine ⟨fun _ _ => fromLookup_congr, fun get config h => read_written (admissible_of_read h),
    fun config => ⟨admissible_of_read, read_written⟩⟩

/-- The defaults with a database. -/
theorem written_round_trip_defaults :
    fromLookup (written { databaseUrl := ⟨"postgresql://runtime@db.example/giw"⟩ }) =
      .ok { databaseUrl := ⟨"postgresql://runtime@db.example/giw"⟩ } :=
  (written_round_trip.2.2 _).mpr
    ⟨{ readable_default with }, by decide +kernel, by decide, fun hprod => by cases hprod⟩

end RuntimeConfig
end IndieWorker
