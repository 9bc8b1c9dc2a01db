import IndieWorker.Lib.Decision
import IndieWorker.Lib.Text
import Mathlib.Data.List.Nodup

/-!
# Planes

`src/runtime/plane.rs`: which plane a process belongs to, and the boot-time checks
that keep the two apart.
-/

namespace IndieWorker
namespace Planes

open Decision Text

/-- The two planes.  There is no third that is both. -/
inductive Plane where
  | product
  | admin
  deriving DecidableEq, Repr

def Plane.asStr : Plane → String
  | product => "product"
  | admin => "admin"

namespace Env

def productDatabaseUrl : String := "DATABASE_URL"
def productAuthDatabaseUrl : String := "AUTH_DATABASE_URL"
def adminDatabaseUrl : String := "GHA_INDIE_WORKER_ADMIN_DATABASE_URL"
def adminRdsUrl : String := "GHA_INDIE_WORKER_ADMIN_RDS_URL"
def plane : String := "GHA_INDIE_WORKER_PLANE"
def sharedAuthIssuer : String := "SHARED_AUTH_ISSUER"
def sharedAuthAdminIssuer : String := "SHARED_AUTH_ADMIN_ISSUER"
def adminAllowlist : String := "GHA_INDIE_WORKER_ADMIN_ALLOWLIST"

end Env

/-- Why a process refused to start. -/
inductive PlaneError where
  | adminMissingAdminDatabase
  | productSawAdminDatabase (name : String)
  | adminIssuerMissing
  | issuersIdentical (issuer : String)
  | adminAllowlistEmpty
  | planeMismatch (declared : String) (expected : Plane)
  deriving DecidableEq

/-- What a validated process knows about its own plane. -/
structure PlaneConfig where
  plane : Plane
  adminDatabaseUrl : Option String
  productDatabaseUrl : Option String
  authDatabaseUrl : Option String
  customerIssuer : Option String
  adminIssuer : Option String
  adminAllowlist : List String
  deriving DecidableEq

def nonEmpty (value : Option String) : Option String := (value.map trimmed).filter (· ≠ "")

/-- Issuers compare after trimming and dropping trailing slashes. -/
def normalizeIssuer (issuer : String) : String := trimEndMatches '/' (trimmed issuer)

/-- One turn of the loop of `parseAllowlist`. -/
def addEntry (out : List String) (entry : List Char) : List String :=
  let entry := trimmed (.ofList entry)
  if entry = "" ∨ out.any (· == entry) then out else out ++ [entry]

/-- Comma-separated allow-list, trimmed, de-duplicated, order preserved. -/
def parseAllowlist (raw : Option String) : List String :=
  (splitAll ',' (raw.getD "").toList).foldl addEntry []

/-- A declared plane must be the plane of the binary. -/
def checkDeclared (plane : Plane) (declared : Option String) : Except PlaneError Unit :=
  match declared with
  | none => .ok ()
  | some declared =>
    if declared ≠ plane.asStr then .error (.planeMismatch declared plane) else .ok ()

/-- Two issuers that are both set must differ. -/
def checkIssuers (customer admin : Option String) : Except PlaneError Unit :=
  match customer, admin with
  | some customer, some admin =>
    if normalizeIssuer customer = normalizeIssuer admin then .error (.issuersIdentical admin)
    else .ok ()
  | _, _ => .ok ()

/-- Validate the environment for a plane.  Answers the first violation. -/
def validate (plane : Plane) (lookup : String → Option String) :
    Except PlaneError PlaneConfig := do
  let get := fun name => nonEmpty (lookup name)
  checkDeclared plane (get Env.plane)
  let productDb := get Env.productDatabaseUrl
  let adminDb := get Env.adminDatabaseUrl
  let adminRds := get Env.adminRdsUrl
  let customerIssuer := get Env.sharedAuthIssuer
  let adminIssuer := get Env.sharedAuthAdminIssuer
  checkIssuers customerIssuer adminIssuer
  match plane with
  | .admin =>
    if productDb.isSome ∧ adminDb.isNone then .error .adminMissingAdminDatabase
    else if adminIssuer.isNone then .error .adminIssuerMissing
    else
      let allowlist := parseAllowlist (get Env.adminAllowlist)
      if allowlist.isEmpty then .error .adminAllowlistEmpty
      else .ok ⟨plane, adminDb.or adminRds, none, none, customerIssuer, adminIssuer, allowlist⟩
  | .product =>
    if adminDb.isSome then .error (.productSawAdminDatabase Env.adminDatabaseUrl)
    else if adminRds.isSome then .error (.productSawAdminDatabase Env.adminRdsUrl)
    else
      .ok ⟨plane, none, productDb, get Env.productAuthDatabaseUrl, customerIssuer, none, []⟩

/-! ## What is read -/

/-- The environment sets the variable to something other than blanks. -/
def Supplies (lookup : String → Option String) (name : String) : Prop :=
  ∃ raw, lookup name = some raw ∧ isBlank raw = false

theorem nonEmpty_isSome_iff (lookup : String → Option String) (name : String) :
    (nonEmpty (lookup name)).isSome ↔ Supplies lookup name := by
  unfold nonEmpty Supplies
  cases lookup name with
  | none => simp
  | some raw => simp [Option.filter, trimmed_eq_empty_iff]

theorem nonEmpty_isNone_iff (lookup : String → Option String) (name : String) :
    (nonEmpty (lookup name)).isNone ↔ ¬ Supplies lookup name := by
  rw [← nonEmpty_isSome_iff, Bool.not_eq_true, ← Option.not_isSome, Bool.not_eq_true']

/-! ## The allow-list -/

/-- Entries that are trimmed, not empty, and pairwise distinct. -/
structure Tidy (entries : List String) : Prop where
  nodup : entries.Nodup
  trimmed : ∀ e ∈ entries, e ≠ "" ∧ trimmed e = e

theorem tidy_nil : Tidy [] := ⟨List.nodup_nil, nofun⟩

theorem Tidy.addEntry {out : List String} (h : Tidy out) (entry : List Char) :
    Tidy (addEntry out entry) := by
  unfold Planes.addEntry
  dsimp only
  by_cases hskip : Text.trimmed (.ofList entry) = "" ∨ out.any (· == Text.trimmed (.ofList entry))
  · rw [if_pos hskip]
    exact h
  · rw [if_neg hskip]
    obtain ⟨hne, hnew⟩ := not_or.mp hskip
    have hfresh : Text.trimmed (.ofList entry) ∉ out := by simpa using hnew
    constructor
    · rw [List.nodup_append]
      refine ⟨h.nodup, List.nodup_singleton _, fun a ha b hb hab => ?_⟩
      rw [List.mem_singleton] at hb
      exact hfresh (hb ▸ hab ▸ ha)
    · intro e he
      rcases List.mem_append.mp he with he | he
      · exact h.trimmed e he
      · rw [List.mem_singleton.mp he]
        exact ⟨hne, trimmed_trimmed _⟩

theorem tidy_parseAllowlist (raw : Option String) : Tidy (parseAllowlist raw) := by
  have hfold : ∀ (entries : List (List Char)) (out : List String), Tidy out →
      Tidy (entries.foldl addEntry out) := by
    intro entries
    induction entries with
    | nil => exact fun _ h => h
    | cons entry entries ih =>
      intro out h
      rw [List.foldl_cons]
      exact ih (addEntry out entry) (h.addEntry entry)
  exact hfold _ [] tidy_nil

/-! ## What a validated environment is -/

theorem checkIssuers_ok {customer admin : Option String} (h : checkIssuers customer admin = .ok ())
    {c a : String} (hc : customer = some c) (ha : admin = some a) :
    normalizeIssuer c ≠ normalizeIssuer a := by
  subst hc ha
  unfold checkIssuers at h
  dsimp only at h
  rw [refuse_eq_ok_iff] at h
  exact h.1

/-- What a process of the admin plane was started with. -/
theorem validate_admin_ok {lookup : String → Option String} {config : PlaneConfig}
    (h : validate .admin lookup = .ok config) :
    (Supplies lookup Env.productDatabaseUrl → Supplies lookup Env.adminDatabaseUrl) ∧
    (∃ a, nonEmpty (lookup Env.sharedAuthAdminIssuer) = some a ∧
      ∀ c, nonEmpty (lookup Env.sharedAuthIssuer) = some c →
        normalizeIssuer c ≠ normalizeIssuer a) ∧
    parseAllowlist (nonEmpty (lookup Env.adminAllowlist)) ≠ [] ∧
    config = ⟨.admin,
      (nonEmpty (lookup Env.adminDatabaseUrl)).or (nonEmpty (lookup Env.adminRdsUrl)), none, none,
      nonEmpty (lookup Env.sharedAuthIssuer), nonEmpty (lookup Env.sharedAuthAdminIssuer),
      parseAllowlist (nonEmpty (lookup Env.adminAllowlist))⟩ := by
  unfold validate at h
  dsimp only at h
  rw [bind_eq_ok_iff] at h
  obtain ⟨_, _, h⟩ := h
  rw [bind_eq_ok_iff] at h
  obtain ⟨_, hissuers, h⟩ := h
  rw [refuse_eq_ok_iff, refuse_eq_ok_iff, refuse_eq_ok_iff] at h
  obtain ⟨hdb, hissuer, hallow, hconfig⟩ := h
  rw [nonEmpty_isSome_iff, nonEmpty_isNone_iff] at hdb
  refine ⟨fun hp => by_contra fun ha => hdb ⟨hp, ha⟩, ?_, ?_, (Except.ok.inj hconfig).symm⟩
  · cases ha : nonEmpty (lookup Env.sharedAuthAdminIssuer) with
    | none =>
      rw [ha] at hissuer
      exact absurd rfl hissuer
    | some a => exact ⟨a, rfl, fun c hc => checkIssuers_ok hissuers hc ha⟩
  · intro hnil
    rw [hnil] at hallow
    exact hallow rfl

/-- What a process of the product plane was started with. -/
theorem validate_product_ok {lookup : String → Option String} {config : PlaneConfig}
    (h : validate .product lookup = .ok config) :
    ¬ Supplies lookup Env.adminDatabaseUrl ∧ ¬ Supplies lookup Env.adminRdsUrl ∧
    config = ⟨.product, none, nonEmpty (lookup Env.productDatabaseUrl),
      nonEmpty (lookup Env.productAuthDatabaseUrl), nonEmpty (lookup Env.sharedAuthIssuer), none,
      []⟩ := by
  unfold validate at h
  dsimp only at h
  rw [bind_eq_ok_iff] at h
  obtain ⟨_, _, h⟩ := h
  rw [bind_eq_ok_iff] at h
  obtain ⟨_, _, h⟩ := h
  rw [refuse_eq_ok_iff, refuse_eq_ok_iff, nonEmpty_isSome_iff, nonEmpty_isSome_iff] at h
  exact ⟨h.1, h.2.1, (Except.ok.inj h.2.2).symm⟩

/-- No environment that supplies a database serves both planes, and what each
plane accepts holds nothing of the other. -/
theorem validate_exclusive (lookup : String → Option String) :
    ((Supplies lookup Env.productDatabaseUrl ∨ Supplies lookup Env.adminDatabaseUrl ∨
        Supplies lookup Env.adminRdsUrl) →
      ∀ forAdmin forProduct, validate .admin lookup = .ok forAdmin →
        validate .product lookup ≠ .ok forProduct) ∧
    (∀ config, validate .product lookup = .ok config →
      ¬ Supplies lookup Env.adminDatabaseUrl ∧ ¬ Supplies lookup Env.adminRdsUrl ∧
        config.adminDatabaseUrl = none ∧ config.adminIssuer = none ∧
          config.adminAllowlist = []) ∧
    (∀ config, validate .admin lookup = .ok config →
      config.productDatabaseUrl = none ∧ config.authDatabaseUrl = none ∧
        config.customerIssuer = nonEmpty (lookup Env.sharedAuthIssuer) ∧
        (∃ a, config.adminIssuer = some a ∧ ∀ c, config.customerIssuer = some c →
          normalizeIssuer c ≠ normalizeIssuer a) ∧
        config.adminAllowlist ≠ [] ∧ config.adminAllowlist.Nodup ∧
          ∀ e ∈ config.adminAllowlist, e ≠ "" ∧ trimmed e = e) := by
  refine ⟨fun hdatabase forAdmin forProduct hadmin hproduct => ?_, fun config h => ?_,
    fun config h => ?_⟩
  · obtain ⟨hneeds, _⟩ := validate_admin_ok hadmin
    obtain ⟨hdb, hrds, _⟩ := validate_product_ok hproduct
    rcases hdatabase with hp | ha | hr
    · exact hdb (hneeds hp)
    · exact hdb ha
    · exact hrds hr
  · obtain ⟨hdb, hrds, hconfig⟩ := validate_product_ok h
    subst hconfig
    exact ⟨hdb, hrds, rfl, rfl, rfl⟩
  · obtain ⟨_, hissuer, hallow, hconfig⟩ := validate_admin_ok h
    have htidy := tidy_parseAllowlist (nonEmpty (lookup Env.adminAllowlist))
    subst hconfig
    exact ⟨rfl, rfl, rfl, hissuer, hallow, htidy.nodup, htidy.trimmed⟩

end Planes
end IndieWorker
