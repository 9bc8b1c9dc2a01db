import IndieWorker.Lib.Masking
import IndieWorker.RuntimeConfig

/-!
# No secret leaks

Reading a configuration from a lookup whose secrets are masked gives what reading it
from the lookup itself gives, with the secrets masked.  Two lookups that differ in
the contents of secrets alone are one lookup after masking.
-/

namespace IndieWorker
namespace RuntimeConfig

open Masking

/-- A database URL as one that passes, or fails, the same check. -/
def maskUrl (url : String) : String := if schemeOk url then "postgres://" else "x"

/-- The lookup with its secrets replaced by marks. -/
def mask (get : Lookup) : Lookup := fun name =>
  if name = "GHA_INDIE_WORKER_DATABASE_URL" then (text get name).map maskUrl
  else if name ∈ secretEnvVars then (text get name).map fun _ => "x"
  else get name

/-- A secret replaced by a mark. -/
def maskSecret (mark : String) (s : Secret) : Secret := if s.isEmpty then s else ⟨mark⟩

/-- The configuration with its secrets replaced by marks. -/
def erase (config : RuntimeConfig) : RuntimeConfig :=
  { config with
    databaseUrl := maskSecret "postgres://" config.databaseUrl
    sharedAuthIntrospectSecret := maskSecret "x" config.sharedAuthIntrospectSecret
    fiduciaApiKey := maskSecret "x" config.fiduciaApiKey }

/-! ## Masked variables -/

theorem text_mask_public {name : String} (h : name ∉ secretEnvVars) (get : Lookup) :
    text (mask get) name = text get name := by
  have hurl : name ≠ "GHA_INDIE_WORKER_DATABASE_URL" := by
    intro heq
    exact h (heq ▸ List.mem_cons_self)
  unfold text mask
  rw [if_neg hurl, if_neg h]

theorem not_isBlank_mark : Text.isBlank "x" = false := by decide +kernel

theorem not_isBlank_maskUrl (url : String) : Text.isBlank (maskUrl url) = false := by
  unfold maskUrl
  cases schemeOk url with
  | false => exact not_isBlank_mark
  | true => decide +kernel

theorem text_mask_secret (get : Lookup) {name : String} (h : name ∈ secretEnvVars)
    (hurl : name ≠ "GHA_INDIE_WORKER_DATABASE_URL") :
    text (mask get) name = (text get name).map fun _ => "x" := by
  have hmask : mask get name = (text get name).map fun _ => "x" := by
    unfold mask
    rw [if_neg hurl, if_pos h]
  rw [text, hmask]
  cases text get name with
  | none => rfl
  | some value => exact Option.filter_some_pos (by rw [not_isBlank_mark]; rfl)

theorem text_mask_url (get : Lookup) :
    text (mask get) "GHA_INDIE_WORKER_DATABASE_URL" =
      (text get "GHA_INDIE_WORKER_DATABASE_URL").map maskUrl := by
  have hmask : mask get "GHA_INDIE_WORKER_DATABASE_URL" =
      (text get "GHA_INDIE_WORKER_DATABASE_URL").map maskUrl := if_pos rfl
  rw [text, hmask]
  cases text get "GHA_INDIE_WORKER_DATABASE_URL" with
  | none => rfl
  | some url => exact Option.filter_some_pos (by rw [not_isBlank_maskUrl]; rfl)

/-- A text that is not blank is not empty. -/
theorem maskSecret_getD (get : Lookup) (name mark : String) :
    maskSecret mark ⟨(text get name).getD ""⟩ =
      ⟨((text get name).map fun _ => mark).getD ""⟩ := by
  cases h : text get name with
  | none => rfl
  | some value =>
    have hblank := text_isBlank h
    have hne : value ≠ "" := by
      intro hempty
      rw [hempty] at hblank
      cases hblank
    have hfull : Secret.isEmpty ⟨value⟩ = false := decide_eq_false hne
    show (if Secret.isEmpty ⟨value⟩ then _ else _) = _
    rw [hfull]
    rfl

/-! ## Masked reading -/

/-- Setting a field does not look at the secrets. -/
def Public (set : Setter) : Prop :=
  ∀ value, Masks erase (fun config => set config value) (fun config => set config value)

theorem masks_ifSet {set : Setter} (h : Public set) (value : Option String) :
    Masks erase (ifSet value set) (ifSet value set) := by
  intro config
  cases value with
  | none => rfl
  | some value => exact h value config

/-- Setting a field from what a text is parsed to. -/
theorem public_parsed {β : Type} {parse : String → Except ConfigError β}
    {set : RuntimeConfig → β → Except ConfigError RuntimeConfig}
    (h : ∀ b, Masks erase (fun config => set config b) (fun config => set config b)) :
    Public fun config value => parse value >>= set config := by
  intro value config
  show (parse value >>= set config).map erase = parse value >>= set (erase config)
  cases parse value with
  | error e => rfl
  | ok b => exact h b config

theorem public_setServiceName : Public setServiceName := fun _ _ => rfl

theorem public_setEnvironment : Public setEnvironment := public_parsed fun _ _ => rfl

theorem public_setReadOnly : Public setReadOnly := by
  intro value config
  unfold setReadOnly
  generalize flagBool value = readOnly
  rfl

theorem public_setMaxConnections : Public setMaxConnections := public_parsed fun _ _ => rfl

theorem public_setHttpBind : Public setHttpBind := fun _ _ => rfl

theorem public_setRequestTimeout : Public setRequestTimeout := public_parsed fun _ _ => rfl

theorem public_setTrustedProxyHops : Public setTrustedProxyHops := public_parsed fun _ _ => rfl

theorem public_setWsPath : Public setWsPath :=
  fun _ => Masks.guard (fun _ => Iff.rfl) fun _ => rfl

theorem public_setWsMaxFrameBytes : Public setWsMaxFrameBytes :=
  public_parsed fun _ => Masks.guard (fun _ => Iff.rfl) fun _ => rfl

theorem public_setNatsSubjectPrefix : Public setNatsSubjectPrefix := fun _ _ => rfl

theorem public_setLogLevel : Public setLogLevel := fun _ _ => rfl

theorem masks_readIdentity (get : Lookup) :
    Masks erase (readIdentity get) (readIdentity (mask get)) := by
  unfold readIdentity
  rw [text_mask_public (by decide), text_mask_public (by decide)]
  exact (masks_ifSet public_setServiceName _).andThen (masks_ifSet public_setEnvironment _)

theorem masks_readHttp (get : Lookup) : Masks erase (readHttp get) (readHttp (mask get)) := by
  unfold readHttp
  rw [text_mask_public (by decide), text_mask_public (by decide), text_mask_public (by decide)]
  exact (masks_ifSet public_setHttpBind _).andThen
    ((masks_ifSet public_setRequestTimeout _).andThen (masks_ifSet public_setTrustedProxyHops _))

/-- The URL passes the check when its mark does. -/
theorem schemeOk_maskUrl (url : String) : schemeOk (maskUrl url) = schemeOk url := by
  unfold maskUrl
  cases schemeOk url with
  | false => decide +kernel
  | true => decide +kernel

theorem maskSecret_url {get : Lookup} {url : String}
    (hurl : text get "GHA_INDIE_WORKER_DATABASE_URL" = some url) (hscheme : schemeOk url = true) :
    maskSecret "postgres://" ⟨url⟩ = ⟨maskUrl url⟩ := by
  have hmask := maskSecret_getD get "GHA_INDIE_WORKER_DATABASE_URL" "postgres://"
  rw [hurl] at hmask
  rw [maskUrl, if_pos hscheme]
  exact hmask

theorem masks_readDatabase (get : Lookup) :
    Masks erase (readDatabase get) (readDatabase (mask get)) := by
  intro config
  unfold readDatabase
  rw [text_mask_url, text_mask_public (by decide), text_mask_public (by decide)]
  cases hurl : text get "GHA_INDIE_WORKER_DATABASE_URL" with
  | none => rfl
  | some url =>
    dsimp only [Option.map]
    rw [schemeOk_maskUrl]
    by_cases hscheme : schemeOk url = true
    · have herase : erase { config with databaseUrl := ⟨url⟩ } =
          { erase config with databaseUrl := ⟨maskUrl url⟩ } := by
        rw [← maskSecret_url hurl hscheme]
        rfl
      have hreadOnly := masks_ifSet public_setReadOnly (text get "GHA_INDIE_WORKER_DB_READ_ONLY")
      have hrest := hreadOnly.andThen
        (masks_ifSet public_setMaxConnections (text get "GHA_INDIE_WORKER_DB_MAX_CONNECTIONS"))
      rw [hscheme, ← herase]
      exact hrest { config with databaseUrl := ⟨url⟩ }
    · rw [Bool.not_eq_true] at hscheme
      rw [hscheme]
      rfl

theorem masks_readSockets (get : Lookup) :
    Masks erase (readSockets get) (readSockets (mask get)) := by
  unfold readSockets
  rw [text_mask_public (by decide), text_mask_public (by decide), text_mask_public (by decide)]
  intro config
  exact (masks_ifSet public_setWsPath _).andThen (masks_ifSet public_setWsMaxFrameBytes _)
    { config with tcpBind := text get "GHA_INDIE_WORKER_TCP_BIND" }

theorem masks_readNats (get : Lookup) : Masks erase (readNats get) (readNats (mask get)) := by
  unfold readNats
  rw [text_mask_public (by decide), text_mask_public (by decide)]
  intro config
  exact masks_ifSet public_setNatsSubjectPrefix _
    { config with natsUrl := text get "GHA_INDIE_WORKER_NATS_URL" }

theorem masks_readSharedAuth (get : Lookup) :
    Masks erase (readSharedAuth get) (readSharedAuth (mask get)) := by
  intro config
  unfold readSharedAuth
  rw [text_mask_public (by decide), text_mask_public (by decide),
    text_mask_secret get (by decide) (by decide), ← maskSecret_getD]
  rfl

theorem isEmpty_maskSecret {mark : String} (hmark : mark ≠ "") (s : Secret) :
    (maskSecret mark s).isEmpty = s.isEmpty := by
  unfold maskSecret
  cases hs : s.isEmpty with
  | true => exact hs
  | false => exact decide_eq_false hmark

theorem masks_readCoordination (get : Lookup) :
    Masks erase (readCoordination get) (readCoordination (mask get)) := by
  have hset : ∀ config, setCoordination (mask get) (erase config) =
      erase (setCoordination get config) := by
    intro config
    unfold setCoordination
    rw [text_mask_public (by decide), text_mask_public (by decide), text_mask_public (by decide),
      text_mask_public (by decide), text_mask_secret get (by decide) (by decide),
      ← maskSecret_getD]
    rfl
  have hlacks : ∀ config : RuntimeConfig, (erase config).lacksFiducia = true ↔
      config.lacksFiducia = true := by
    intro config
    have hkey : (erase config).fiduciaApiKey.isEmpty = config.fiduciaApiKey.isEmpty :=
      isEmpty_maskSecret (by decide) _
    rw [lacksFiducia, lacksFiducia, hkey]
    rfl
  intro config
  unfold readCoordination
  dsimp only
  rw [hset]
  by_cases hbad : (setCoordination get config).lacksFiducia = true
  · rw [if_pos hbad, if_pos ((hlacks _).mpr hbad)]
    rfl
  · rw [if_neg hbad, if_neg fun h => hbad ((hlacks _).mp h)]
    rfl

theorem masks_readObservability (get : Lookup) :
    Masks erase (readObservability get) (readObservability (mask get)) := by
  unfold readObservability
  rw [text_mask_public (by decide), text_mask_public (by decide), text_mask_public (by decide),
    text_mask_public (by decide)]
  intro config
  exact (masks_ifSet public_setLogLevel _).andThen (fun _ => rfl)
    { config with otelEndpoint := text get "GHA_INDIE_WORKER_OTEL_ENDPOINT" }

theorem masks_checkEnvironmentPolicy :
    Masks erase checkEnvironmentPolicy checkEnvironmentPolicy := by
  have hsecret : ∀ config : RuntimeConfig,
      (erase config).sharedAuthIntrospectSecret.isEmpty = true ↔
        config.sharedAuthIntrospectSecret.isEmpty = true := by
    intro config
    have hempty : (erase config).sharedAuthIntrospectSecret.isEmpty =
        config.sharedAuthIntrospectSecret.isEmpty := isEmpty_maskSecret (by decide) _
    rw [hempty]
  exact Masks.ite (fun _ => Iff.rfl) masks_ok (Masks.guard (fun _ => Iff.rfl)
    (Masks.guard (fun _ => Iff.rfl) (Masks.guard hsecret masks_ok)))

/-- Reading from a masked lookup is masking what was read. -/
theorem map_erase_fromLookup (get : Lookup) :
    (fromLookup get).map erase = fromLookup (mask get) := by
  have hmasks := (masks_readIdentity get).andThen ((masks_readDatabase get).andThen
    ((masks_readHttp get).andThen ((masks_readSockets get).andThen ((masks_readNats get).andThen
      ((masks_readSharedAuth get).andThen ((masks_readCoordination get).andThen
        ((masks_readObservability get).andThen masks_checkEnvironmentPolicy)))))))
  exact hmasks {}

/-! ## What an observer sees -/

/-- Lookups that differ in the contents of secrets alone. -/
structure Indistinguishable (get get' : Lookup) : Prop where
  outside : ∀ name, name ∉ secretEnvVars → get name = get' name
  blank : ∀ name ∈ secretEnvVars, (text get name).isSome = (text get' name).isSome
  scheme : (text get "GHA_INDIE_WORKER_DATABASE_URL").any schemeOk =
    (text get' "GHA_INDIE_WORKER_DATABASE_URL").any schemeOk

theorem map_mark_eq {a b : Option String} (h : a.isSome = b.isSome) (mark : String) :
    (a.map fun _ => mark) = b.map fun _ => mark := by
  cases a with
  | none =>
    cases b with
    | none => rfl
    | some _ => cases h
  | some _ =>
    cases b with
    | none => cases h
    | some _ => rfl

theorem map_maskUrl_eq {a b : Option String} (h : a.isSome = b.isSome)
    (hscheme : a.any schemeOk = b.any schemeOk) : a.map maskUrl = b.map maskUrl := by
  cases a with
  | none =>
    cases b with
    | none => rfl
    | some _ => cases h
  | some url =>
    cases b with
    | none => cases h
    | some url' =>
      have hsame : schemeOk url = schemeOk url' := hscheme
      show some (maskUrl url) = some (maskUrl url')
      rw [maskUrl, maskUrl, hsame]

theorem mask_eq {get get' : Lookup} (h : Indistinguishable get get') : mask get = mask get' := by
  funext name
  unfold mask
  by_cases hurl : name = "GHA_INDIE_WORKER_DATABASE_URL"
  · rw [if_pos hurl, if_pos hurl]
    subst hurl
    exact map_maskUrl_eq (h.blank _ (by decide)) h.scheme
  · rw [if_neg hurl, if_neg hurl]
    by_cases hsecret : name ∈ secretEnvVars
    · rw [if_pos hsecret, if_pos hsecret]
      exact map_mark_eq (h.blank name hsecret) "x"
    · rw [if_neg hsecret, if_neg hsecret]
      exact h.outside name hsecret

/-- Printing a secret shows no more than whether it is set. -/
theorem debug_maskSecret {mark : String} (hmark : mark ≠ "") (s : Secret) :
    (maskSecret mark s).debug = s.debug := by
  unfold maskSecret
  by_cases hs : s.value = ""
  · have hempty : s.isEmpty = true := decide_eq_true hs
    rw [if_pos hempty]
  · have hfull : ¬ s.isEmpty = true := fun h => hs (of_decide_eq_true h)
    rw [if_neg hfull]
    show (if mark = "" then _ else _) = if s.value = "" then _ else _
    rw [if_neg hmark, if_neg hs]

theorem debug_erase (render : Renderer) (config : RuntimeConfig) :
    (erase config).debug render = config.debug render := by
  unfold debug debugFields erase
  dsimp only
  rw [debug_maskSecret (by decide), debug_maskSecret (by decide), debug_maskSecret (by decide)]

theorem redactedSummary_erase (config : RuntimeConfig) :
    (erase config).redactedSummary = config.redactedSummary := rfl

/-- The configuration with the secrets of another. -/
def withSecretsOf (config other : RuntimeConfig) : RuntimeConfig :=
  { config with
    databaseUrl := other.databaseUrl
    sharedAuthIntrospectSecret := other.sharedAuthIntrospectSecret
    fiduciaApiKey := other.fiduciaApiKey }

/-- Lookups that differ in the contents of secrets alone are refused with one error,
or give configurations that differ in the contents of secrets alone and print
alike. -/
theorem fromLookup_noninterference {get get' : Lookup} (h : Indistinguishable get get')
    (render : Renderer) :
    (∃ e, fromLookup get = .error e ∧ fromLookup get' = .error e) ∨
    ∃ config config', fromLookup get = .ok config ∧ fromLookup get' = .ok config' ∧
      config.withSecretsOf config' = config' ∧ config.debug render = config'.debug render ∧
        config.redactedSummary = config'.redactedSummary := by
  have hmask : (fromLookup get).map erase = (fromLookup get').map erase := by
    rw [map_erase_fromLookup, map_erase_fromLookup, mask_eq h]
  rcases outcome_of_map_eq hmask with herror | ⟨config, config', hget, hget', herase⟩
  · exact Or.inl herror
  · refine Or.inr ⟨config, config', hget, hget', ?_, ?_, ?_⟩
    · have hfields : withSecretsOf (erase config) config' = withSecretsOf (erase config') config' :=
        congrArg (withSecretsOf · config') herase
      exact hfields
    · rw [← debug_erase, herase, debug_erase]
    · rw [← redactedSummary_erase, herase, redactedSummary_erase]

/-- A lookup with two secrets. -/
def withSecrets (password key : String) : Lookup := fun name =>
  if name = "GHA_INDIE_WORKER_DATABASE_URL" then
    some ("postgresql://runtime:" ++ password ++ "@db.example/giw")
  else if name = "GHA_INDIE_WORKER_FIDUCIA_API_KEY" then some key
  else none

/-- Texts as they are, and durations in seconds. -/
def plain : Renderer := ⟨id, fun n => toString n.toNat ++ "s"⟩

theorem fromLookup_noninterference_of_rotation :
    ∃ config config', fromLookup (withSecrets "hunter2" "k1") = .ok config ∧
      fromLookup (withSecrets "hunter3" "k2") = .ok config' ∧ config ≠ config' ∧
        config.debug plain = config'.debug plain := by
  have hpair : Indistinguishable (withSecrets "hunter2" "k1") (withSecrets "hunter3" "k2") := by
    refine ⟨fun name hname => ?_, by decide +kernel, by decide +kernel⟩
    have hurl : name ≠ "GHA_INDIE_WORKER_DATABASE_URL" := fun h => hname (by rw [h]; decide)
    have hkey : name ≠ "GHA_INDIE_WORKER_FIDUCIA_API_KEY" := fun h => hname (by rw [h]; decide)
    unfold withSecrets
    rw [if_neg hurl, if_neg hkey, if_neg hurl, if_neg hkey]
  have hok : (fromLookup (withSecrets "hunter2" "k1")).isOk = true := by decide +kernel
  have hdiffer : fromLookup (withSecrets "hunter2" "k1") ≠
      fromLookup (withSecrets "hunter3" "k2") := by decide +kernel
  rcases fromLookup_noninterference hpair plain with ⟨e, he, _⟩ |
    ⟨config, config', h, h', _, hdebug, _⟩
  · rw [he] at hok
    cases hok
  · refine ⟨config, config', h, h', fun heq => hdiffer ?_, hdebug⟩
    rw [h, h', heq]

end RuntimeConfig
end IndieWorker
