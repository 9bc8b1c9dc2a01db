import IndieWorker.RuntimeConfig

/-!
# What a configuration holds

The fields of a configuration that was read, one group of variables at a time: what
each reader writes, and that it leaves the other fields alone.
-/

namespace IndieWorker
namespace RuntimeConfig

open Decision Text

theorem ifSet_ok {value : Option String} {set : Setter} {config config' : RuntimeConfig}
    (h : ifSet value set config = .ok config') :
    (value = none ∧ config' = config) ∨ ∃ v, value = some v ∧ set config v = .ok config' := by
  cases value with
  | none => exact Or.inl ⟨rfl, (Except.ok.inj h).symm⟩
  | some v => exact Or.inr ⟨v, rfl, h⟩

theorem parseNumber_ok {width n : Nat} {name value reason : String}
    (h : parseNumber width name value reason = .ok n) : parseUnsigned width value = some n := by
  unfold parseNumber at h
  cases hparse : parseUnsigned width value with
  | none =>
    rw [hparse] at h
    cases h
  | some m =>
    rw [hparse] at h
    exact congrArg some (Except.ok.inj h)

/-- The environment a variable names, or the default. -/
def NamesEnvironment (value : Option String) (default environment : Environment) : Prop :=
  (value = none ∧ environment = default) ∨
    ∃ v, value = some v ∧ Environment.parse v = .ok environment

/-- The number a variable holds, or the default. -/
def HoldsNumber (width : Nat) (value : Option String) (default n : Nat) : Prop :=
  (value = none ∧ n = default) ∨ ∃ v, value = some v ∧ parseUnsigned width v = some n

theorem readIdentity_ok {get : Lookup} {config config' : RuntimeConfig}
    (h : readIdentity get config = .ok config') :
    ∃ serviceName environment,
      config' = { config with serviceName := serviceName, environment := environment } ∧
        NamesEnvironment (text get "GHA_INDIE_WORKER_ENV") config.environment environment := by
  unfold readIdentity at h
  rw [bind_eq_ok_iff] at h
  obtain ⟨named, hname, h⟩ := h
  have hnamed : ∃ serviceName, named = { config with serviceName := serviceName } := by
    rcases ifSet_ok hname with ⟨_, hsame⟩ | ⟨v, _, hset⟩
    · exact ⟨config.serviceName, hsame⟩
    · exact ⟨v, (Except.ok.inj hset).symm⟩
  obtain ⟨serviceName, rfl⟩ := hnamed
  rcases ifSet_ok h with ⟨hnone, hsame⟩ | ⟨v, hv, hset⟩
  · exact ⟨serviceName, config.environment, hsame, Or.inl ⟨hnone, rfl⟩⟩
  · unfold setEnvironment at hset
    rw [bind_eq_ok_iff] at hset
    obtain ⟨environment, hparse, hset⟩ := hset
    exact ⟨serviceName, environment, (Except.ok.inj hset).symm, Or.inr ⟨v, hv, hparse⟩⟩

theorem ifSet_maxConnections_ok {value : Option String} {config config' : RuntimeConfig}
    (h : ifSet value setMaxConnections config = .ok config') :
    ∃ n, config' = { config with databaseMaxConnections := .ofNat n } ∧
      HoldsNumber 32 value config.databaseMaxConnections.toNat n := by
  rcases ifSet_ok h with ⟨hnone, hsame⟩ | ⟨v, hv, hset⟩
  · refine ⟨config.databaseMaxConnections.toNat, ?_, Or.inl ⟨hnone, rfl⟩⟩
    rw [UInt32.ofNat_toNat]
    exact hsame
  · unfold setMaxConnections at hset
    rw [bind_eq_ok_iff] at hset
    obtain ⟨n, hn, hset⟩ := hset
    exact ⟨n, (Except.ok.inj hset).symm, Or.inr ⟨v, hv, parseNumber_ok hn⟩⟩

theorem readDatabase_ok {get : Lookup} {config config' : RuntimeConfig}
    (h : readDatabase get config = .ok config') :
    ∃ url n, config' = { config with
        databaseUrl := ⟨url⟩
        databaseReadOnly := ((text get "GHA_INDIE_WORKER_DB_READ_ONLY").map flagBool).getD
          config.databaseReadOnly
        databaseMaxConnections := .ofNat n } ∧
      text get "GHA_INDIE_WORKER_DATABASE_URL" = some url ∧ schemeOk url = true ∧
        HoldsNumber 32 (text get "GHA_INDIE_WORKER_DB_MAX_CONNECTIONS")
          config.databaseMaxConnections.toNat n := by
  unfold readDatabase at h
  cases hurl : text get "GHA_INDIE_WORKER_DATABASE_URL" with
  | none =>
    rw [hurl] at h
    cases h
  | some url =>
    rw [hurl] at h
    dsimp only at h
    rw [refuse_eq_ok_iff, bind_eq_ok_iff] at h
    obtain ⟨hscheme, posture, hposture, h⟩ := h
    have hscheme : schemeOk url = true := by simpa using hscheme
    have hreadOnly : posture = { config with
        databaseUrl := ⟨url⟩
        databaseReadOnly := ((text get "GHA_INDIE_WORKER_DB_READ_ONLY").map flagBool).getD
          config.databaseReadOnly } := by
      rcases ifSet_ok hposture with ⟨hnone, hsame⟩ | ⟨v, hv, hset⟩
      · rw [hnone]
        exact hsame
      · rw [hv, Option.map_some, Option.getD_some]
        unfold setReadOnly at hset
        exact (Except.ok.inj hset).symm
    obtain ⟨n, hn, hnumber⟩ := ifSet_maxConnections_ok h
    rw [hreadOnly] at hn hnumber
    exact ⟨url, n, hn, rfl, hscheme, hnumber⟩

/-- Setting one field leaves the others alone. -/
theorem ifSet_frame {α : Type} {value : Option String} {set : Setter}
    {config config' : RuntimeConfig} {put : α → RuntimeConfig} (a : α) (hself : put a = config)
    (hset : ∀ v c, set config v = .ok c → ∃ a, c = put a)
    (h : ifSet value set config = .ok config') : ∃ a, config' = put a := by
  rcases ifSet_ok h with ⟨_, hsame⟩ | ⟨v, _, hv⟩
  · exact ⟨a, hsame.trans hself.symm⟩
  · exact hset v config' hv

theorem parsed_frame {α β : Type} {x : Except ConfigError β} {f : β → α}
    {put : α → RuntimeConfig} {config : RuntimeConfig}
    (h : (x >>= fun b => .ok (put (f b))) = .ok config) : ∃ a, config = put a := by
  rw [bind_eq_ok_iff] at h
  obtain ⟨b, _, h⟩ := h
  exact ⟨f b, (Except.ok.inj h).symm⟩

theorem readHttp_ok {get : Lookup} {config config' : RuntimeConfig}
    (h : readHttp get config = .ok config') :
    ∃ httpBind requestTimeout trustedProxyHops, config' = { config with
      httpBind := httpBind
      requestTimeout := requestTimeout
      trustedProxyHops := trustedProxyHops } := by
  unfold readHttp at h
  rw [bind_eq_ok_iff] at h
  obtain ⟨bound, hbind, h⟩ := h
  rw [bind_eq_ok_iff] at h
  obtain ⟨timed, htimeout, h⟩ := h
  have hbind : ∃ a, bound = { config with httpBind := a } :=
    ifSet_frame config.httpBind rfl (fun v c hset => ⟨v, (Except.ok.inj hset).symm⟩) hbind
  obtain ⟨httpBind, rfl⟩ := hbind
  have htimeout : ∃ a, timed = { config with httpBind := httpBind, requestTimeout := a } :=
    ifSet_frame config.requestTimeout rfl (fun v c hset => parsed_frame hset) htimeout
  obtain ⟨requestTimeout, rfl⟩ := htimeout
  have hhops : ∃ a, config' = { config with
      httpBind := httpBind, requestTimeout := requestTimeout, trustedProxyHops := a } :=
    ifSet_frame config.trustedProxyHops rfl (fun v c hset => parsed_frame hset) h
  obtain ⟨trustedProxyHops, hhops⟩ := hhops
  exact ⟨httpBind, requestTimeout, trustedProxyHops, hhops⟩

/-- A websocket path and a frame size that pass the checks. -/
structure SocketsOk (wsPath : String) (wsMaxFrameBytes : UInt64) : Prop where
  path : startsWith "/" wsPath = true
  frame : 1 ≤ wsMaxFrameBytes.toNat ∧ wsMaxFrameBytes.toNat ≤ Protocol.MAX_FRAME_BYTES

theorem readSockets_ok {get : Lookup} {config config' : RuntimeConfig}
    (hok : SocketsOk config.wsPath config.wsMaxFrameBytes)
    (h : readSockets get config = .ok config') :
    ∃ tcpBind wsPath wsMaxFrameBytes, config' = { config with
        tcpBind := tcpBind
        wsPath := wsPath
        wsMaxFrameBytes := wsMaxFrameBytes } ∧ SocketsOk wsPath wsMaxFrameBytes := by
  unfold readSockets at h
  rw [bind_eq_ok_iff] at h
  obtain ⟨pathed, hpath, h⟩ := h
  have hpathed : ∃ wsPath, pathed = { config with
      tcpBind := text get "GHA_INDIE_WORKER_TCP_BIND", wsPath := wsPath } ∧
        startsWith "/" wsPath = true := by
    rcases ifSet_ok hpath with ⟨_, hsame⟩ | ⟨v, _, hset⟩
    · exact ⟨config.wsPath, hsame, hok.path⟩
    · unfold setWsPath at hset
      rw [refuse_eq_ok_iff] at hset
      exact ⟨v, (Except.ok.inj hset.2).symm, by simpa using hset.1⟩
  obtain ⟨wsPath, rfl, hslash⟩ := hpathed
  rcases ifSet_ok h with ⟨_, hsame⟩ | ⟨v, _, hset⟩
  · exact ⟨_, wsPath, config.wsMaxFrameBytes, hsame, hslash, hok.frame⟩
  · unfold setWsMaxFrameBytes at hset
    rw [bind_eq_ok_iff] at hset
    obtain ⟨n, hn, hset⟩ := hset
    rw [refuse_eq_ok_iff] at hset
    obtain ⟨hbounds, hset⟩ := hset
    have hn' : (UInt64.ofNat n).toNat = n :=
      UInt64.toNat_ofNat_of_lt' (parseUnsigned_lt (parseNumber_ok hn))
    refine ⟨_, wsPath, .ofNat n, (Except.ok.inj hset).symm, hslash, ?_⟩
    rw [hn']
    omega

theorem readNats_ok {get : Lookup} {config config' : RuntimeConfig}
    (h : readNats get config = .ok config') :
    ∃ natsUrl natsSubjectPrefix, config' = { config with
      natsUrl := natsUrl
      natsSubjectPrefix := natsSubjectPrefix } := by
  have hframe : ∃ a, config' = { config with
      natsUrl := text get "GHA_INDIE_WORKER_NATS_URL", natsSubjectPrefix := a } :=
    ifSet_frame config.natsSubjectPrefix rfl (fun v c hset => ⟨v, (Except.ok.inj hset).symm⟩) h
  obtain ⟨natsSubjectPrefix, hframe⟩ := hframe
  exact ⟨_, natsSubjectPrefix, hframe⟩

theorem readCoordination_ok {get : Lookup} {config config' : RuntimeConfig}
    (h : readCoordination get config = .ok config') :
    config' = setCoordination get config ∧ config'.lacksFiducia = false := by
  unfold readCoordination at h
  rw [refuse_eq_ok_iff] at h
  obtain ⟨hlacks, h⟩ := h
  have hconfig := Except.ok.inj h
  rw [← hconfig]
  exact ⟨rfl, by simpa using hlacks⟩

theorem readObservability_ok {get : Lookup} {config config' : RuntimeConfig}
    (h : readObservability get config = .ok config') :
    ∃ otelEndpoint logLevel chatApiBase syncEnabled, config' = { config with
      otelEndpoint := otelEndpoint
      logLevel := logLevel
      chatApiBase := chatApiBase
      syncEnabled := syncEnabled } := by
  unfold readObservability at h
  rw [bind_eq_ok_iff] at h
  obtain ⟨logged, hlog, h⟩ := h
  have hlog : ∃ a, logged = { config with
      otelEndpoint := text get "GHA_INDIE_WORKER_OTEL_ENDPOINT", logLevel := a } :=
    ifSet_frame config.logLevel rfl (fun v c hset => ⟨v, (Except.ok.inj hset).symm⟩) hlog
  obtain ⟨logLevel, rfl⟩ := hlog
  exact ⟨_, logLevel, _, _, (Except.ok.inj h).symm⟩

/-- The settings that production requires. -/
def SharedAuthSet (config : RuntimeConfig) : Prop :=
  config.sharedAuthBase ≠ "" ∧ config.sharedAuthAudience ≠ "" ∧
    config.sharedAuthIntrospectSecret.value ≠ ""

theorem checkEnvironmentPolicy_ok {config config' : RuntimeConfig}
    (h : checkEnvironmentPolicy config = .ok config') :
    config' = config ∧ (config.environment = .prod → SharedAuthSet config) := by
  unfold checkEnvironmentPolicy at h
  by_cases hprod : config.environment ≠ .prod
  · rw [if_pos hprod] at h
    exact ⟨(Except.ok.inj h).symm, fun heq => absurd heq hprod⟩
  · rw [if_neg hprod, refuse_eq_ok_iff, refuse_eq_ok_iff, refuse_eq_ok_iff] at h
    obtain ⟨hbase, haudience, hsecret, h⟩ := h
    refine ⟨(Except.ok.inj h).symm, fun _ => ⟨hbase, haudience, fun hempty => ?_⟩⟩
    exact hsecret (decide_eq_true hempty)

/-- What the fields of a configuration say of the lookup it was read from. -/
structure ReadFrom (get : Lookup) (config : RuntimeConfig) : Prop where
  environment : NamesEnvironment (text get "GHA_INDIE_WORKER_ENV") .staging config.environment
  databaseUrl : text get "GHA_INDIE_WORKER_DATABASE_URL" = some config.databaseUrl.value
  databaseReadOnly : config.databaseReadOnly =
    ((text get "GHA_INDIE_WORKER_DB_READ_ONLY").map flagBool).getD true
  databaseMaxConnections : HoldsNumber 32 (text get "GHA_INDIE_WORKER_DB_MAX_CONNECTIONS") 8
    config.databaseMaxConnections.toNat
  sockets : SocketsOk config.wsPath config.wsMaxFrameBytes
  sharedAuthBase : config.sharedAuthBase = (text get "GHA_INDIE_WORKER_SHARED_AUTH_BASE").getD ""
  sharedAuthAudience : config.sharedAuthAudience =
    (text get "GHA_INDIE_WORKER_SHARED_AUTH_AUDIENCE").getD ""
  sharedAuthIntrospectSecret : config.sharedAuthIntrospectSecret.value =
    (text get "GHA_INDIE_WORKER_SHARED_AUTH_INTROSPECT_SECRET").getD ""
  coordination : config = setCoordination get config
  lacksFiducia : config.lacksFiducia = false
  policy : config.environment = .prod → SharedAuthSet config

theorem HoldsNumber.lt {width n default : Nat} {value : Option String}
    (h : HoldsNumber width value default n) (hdefault : default < 2 ^ width) : n < 2 ^ width := by
  rcases h with ⟨_, hn⟩ | ⟨v, _, hn⟩
  · rw [hn]
    exact hdefault
  · exact parseUnsigned_lt hn

theorem socketsOk_default : SocketsOk "/v1/ws" (.ofNat Protocol.MAX_FRAME_BYTES) :=
  ⟨by decide +kernel, by decide, by decide⟩

/-- Every configuration that is read holds what its lookup says. -/
theorem fromLookup_ok {get : Lookup} {config : RuntimeConfig}
    (h : fromLookup get = .ok config) : ReadFrom get config := by
  unfold fromLookup at h
  simp only [bind_eq_ok_iff] at h
  obtain ⟨c₁, h₁, c₂, h₂, c₃, h₃, c₄, h₄, c₅, h₅, c₆, h₆, c₇, h₇, c₈, h₈, h₉⟩ := h
  obtain ⟨serviceName, environment, rfl, henvironment⟩ := readIdentity_ok h₁
  obtain ⟨url, n, rfl, hurl, _, hnumber⟩ := readDatabase_ok h₂
  obtain ⟨httpBind, timeout, hops, rfl⟩ := readHttp_ok h₃
  obtain ⟨tcpBind, wsPath, wsMaxFrameBytes, rfl, hsockets⟩ := readSockets_ok socketsOk_default h₄
  obtain ⟨natsUrl, natsSubjectPrefix, rfl⟩ := readNats_ok h₅
  cases h₆
  obtain ⟨rfl, hlacks⟩ := readCoordination_ok h₇
  obtain ⟨otelEndpoint, logLevel, chatApiBase, syncEnabled, rfl⟩ := readObservability_ok h₈
  obtain ⟨rfl, hpolicy⟩ := checkEnvironmentPolicy_ok h₉
  have height : (8 : UInt32).toNat = 8 := by decide
  dsimp only at hnumber
  rw [height] at hnumber
  have hconnections : HoldsNumber 32 (text get "GHA_INDIE_WORKER_DB_MAX_CONNECTIONS") 8
      (UInt32.ofNat n).toNat := by
    rw [UInt32.toNat_ofNat_of_lt' (hnumber.lt (by decide))]
    exact hnumber
  exact {
    environment := henvironment
    databaseUrl := hurl
    databaseReadOnly := rfl
    databaseMaxConnections := hconnections
    sockets := hsockets
    sharedAuthBase := rfl
    sharedAuthAudience := rfl
    sharedAuthIntrospectSecret := rfl
    coordination := rfl
    lacksFiducia := hlacks
    policy := hpolicy }

end RuntimeConfig
end IndieWorker
