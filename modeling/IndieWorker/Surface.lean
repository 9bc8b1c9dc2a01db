import IndieWorker.Lib.Text

/-!
# Surfaces

`src/runtime/surface.rs`: one web server serves several public surfaces, and the
`Host` header decides which.  The same decision keeps the admin surfaces out of
the product server.
-/

namespace IndieWorker

open Text

/-- A public surface of the product. -/
inductive Surface where
  | app
  | user
  | org
  | mobile
  | api
  | auth
  | admin
  | adminApi
  | marketing
  deriving DecidableEq, Repr

namespace Surface

def label : Surface → String
  | app => "app"
  | user => "user"
  | org => "org"
  | mobile => "m"
  | api => "api"
  | auth => "auth"
  | admin => "admin"
  | adminApi => "admin-api"
  | marketing => "www"

/-- Surfaces the product web server is allowed to render. -/
def isProductWeb : Surface → Bool
  | app | user | org | mobile | marketing => true
  | _ => false

/-- Surfaces that belong to the admin plane. -/
def isAdmin : Surface → Bool
  | admin | adminApi => true
  | _ => false

/-- May an unauthenticated visitor see the landing page? -/
def allowsAnonymousLanding : Surface → Bool
  | user | org | marketing | mobile => true
  | _ => false

/-- Where an anonymous request is sent to sign in. -/
def loginSurface : Surface → Surface
  | org => org
  | mobile => mobile
  | _ => user

end Surface

/-- The surface of a label. -/
def surfaceOf (label : String) : Option Surface :=
  if label = "app" then some .app
  else if label = "user" then some .user
  else if label = "org" then some .org
  else if label = "m" ∨ label = "mobile" then some .mobile
  else if label = "api" then some .api
  else if label = "auth" then some .auth
  else if label = "admin" then some .admin
  else if label = "admin-api" ∨ label = "api-admin" then some .adminApi
  else if label = "www" then some .marketing
  else none

/-- A host header without blanks, capitals, port and trailing dots. -/
def hostName (hostHeader : String) : List Char :=
  let host := toAsciiLowercase (trim hostHeader.toList)
  (((splitOnce ':' host).map Prod.fst).getD host).rdropWhile (· == '.')

def apexName (apex : String) : List Char :=
  (toAsciiLowercase (trim apex.toList)).rdropWhile (· == '.')

/-- The surface of a host, or `none` for a host that is not ours. -/
def resolve (hostHeader apex : String) : Option Surface :=
  let host := hostName hostHeader
  let apex := apexName apex
  if host = apex then some .marketing
  else do
    let front ← stripSuffix apex host
    let label ← stripSuffix ['.'] front
    -- Only a single label is routed.
    if label = [] ∨ '.' ∈ label then none else surfaceOf (.ofList label)

/-- What the product web server does with a request. -/
inductive Disposition where
  | serve (surface : Surface)
  | redirectToLogin (surface : Surface)
  | notFound
  deriving DecidableEq, Repr

def dispose (hostHeader apex : String) (authenticated : Bool) : Disposition :=
  match resolve hostHeader apex with
  | none => .notFound
  | some surface =>
    if surface.isAdmin then .notFound
    else if surface = .api ∨ surface = .auth then .notFound
    else if authenticated || surface.allowsAnonymousLanding then .serve surface
    else .redirectToLogin surface.loginSurface

namespace Surface

/-- The labels under which a surface is reached. -/
def labels : Surface → List String
  | app => ["app"]
  | user => ["user"]
  | org => ["org"]
  | mobile => ["m", "mobile"]
  | api => ["api"]
  | auth => ["auth"]
  | admin => ["admin"]
  | adminApi => ["admin-api", "api-admin"]
  | marketing => ["www"]

end Surface

/-- A label that leads to a surface. -/
def IsLabel (label : List Char) : Prop := ∃ s : Surface, ∃ l ∈ s.labels, label = l.toList

theorem surfaceOf_of_mem_labels {label : String} {s : Surface} (h : label ∈ s.labels) :
    surfaceOf label = some s := by
  have hall : ∀ l ∈ s.labels, surfaceOf l = some s := by
    cases s <;> decide
  exact hall label h

/-- A test of the chain answers, or the chain goes on. -/
theorem ite_some_eq {p : Prop} [Decidable p] {s t : Surface} {rest : Option Surface}
    (h : (if p then some t else rest) = some s) : p ∧ t = s ∨ rest = some s := by
  by_cases hp : p
  · rw [if_pos hp] at h
    exact .inl ⟨hp, Option.some.inj h⟩
  · rw [if_neg hp] at h
    exact .inr h

theorem mem_labels_of_surfaceOf {label : String} {s : Surface} (h : surfaceOf label = some s) :
    label ∈ s.labels := by
  rw [surfaceOf] at h
  rcases ite_some_eq h with ⟨rfl, rfl⟩ | h
  · exact List.mem_singleton_self _
  rcases ite_some_eq h with ⟨rfl, rfl⟩ | h
  · exact List.mem_singleton_self _
  rcases ite_some_eq h with ⟨rfl, rfl⟩ | h
  · exact List.mem_singleton_self _
  rcases ite_some_eq h with ⟨hmobile, rfl⟩ | h
  · exact List.mem_pair.mpr hmobile
  rcases ite_some_eq h with ⟨rfl, rfl⟩ | h
  · exact List.mem_singleton_self _
  rcases ite_some_eq h with ⟨rfl, rfl⟩ | h
  · exact List.mem_singleton_self _
  rcases ite_some_eq h with ⟨rfl, rfl⟩ | h
  · exact List.mem_singleton_self _
  rcases ite_some_eq h with ⟨hadminApi, rfl⟩ | h
  · exact List.mem_pair.mpr hadminApi
  rcases ite_some_eq h with ⟨rfl, rfl⟩ | h
  · exact List.mem_singleton_self _
  cases h

theorem surfaceOf_eq_some_iff {label : String} {s : Surface} :
    surfaceOf label = some s ↔ label ∈ s.labels :=
  ⟨mem_labels_of_surfaceOf, surfaceOf_of_mem_labels⟩

/-- No label is empty or has a dot. -/
theorem dot_not_mem_label {s : Surface} {l : String} (h : l ∈ s.labels) :
    l.toList ≠ [] ∧ '.' ∉ l.toList := by
  have hall : ∀ l ∈ s.labels, l.toList ≠ [] ∧ '.' ∉ l.toList := by
    cases s <;> decide
  exact hall l h

theorem hostName_eq (hostHeader : String) :
    hostName hostHeader =
      ((toAsciiLowercase (trim hostHeader.toList)).takeWhile (· != ':')).rdropWhile (· == '.') := by
  unfold hostName
  dsimp only
  rw [splitOnce_fst]

theorem colon_not_mem_hostName (hostHeader : String) : ':' ∉ hostName hostHeader := by
  rw [hostName_eq]
  intro h
  have hmem := List.mem_takeWhile_imp ((List.rdropWhile_prefix _ _).subset h)
  exact absurd hmem (by decide)

/-- A name without trailing dots. -/
theorem rdropWhile_dot_ne (text front : List Char) :
    text.rdropWhile (· == '.') ≠ front ++ ['.'] := by
  intro h
  have hidem := List.rdropWhile_idempotent (· == '.') text
  rw [h, List.rdropWhile_concat_pos _ _ _ (by decide)] at hidem
  have hle := (List.rdropWhile_prefix (· == '.') front).length_le
  rw [hidem, List.length_append, List.length_singleton] at hle
  omega

theorem resolve_eq_some_iff {hostHeader apex : String} {s : Surface} :
    resolve hostHeader apex = some s ↔
      (hostName hostHeader = apexName apex ∧ s = .marketing) ∨
        ∃ l ∈ s.labels, hostName hostHeader = l.toList ++ '.' :: apexName apex := by
  unfold resolve
  dsimp only
  generalize hostName hostHeader = host
  generalize apexName apex = apex
  by_cases hsame : host = apex
  · rw [if_pos hsame]
    constructor
    · intro h
      exact .inl ⟨hsame, (Option.some.inj h).symm⟩
    · intro h
      rcases h with h | ⟨l, _, hl⟩
      · rw [h.2]
      · have hlen := congrArg List.length (hsame.symm.trans hl)
        rw [List.length_append, List.length_cons] at hlen
        omega
  · rw [if_neg hsame]
    constructor
    · intro h
      obtain ⟨front, hfront, h⟩ := Option.bind_eq_some_iff.mp h
      obtain ⟨label, hlabel, h⟩ := Option.bind_eq_some_iff.mp h
      rw [stripSuffix_eq_some_iff] at hfront hlabel
      split at h
      · cases h
      · refine .inr ⟨_, surfaceOf_eq_some_iff.mp h, ?_⟩
        rw [hfront, hlabel, String.toList_ofList, List.append_assoc]
        rfl
    · intro h
      rcases h with h | ⟨l, hl, hhost⟩
      · exact absurd h.1 hsame
      · obtain ⟨hne, hdot⟩ := dot_not_mem_label hl
        have hfront : stripSuffix apex host = some (l.toList ++ ['.']) :=
          stripSuffix_eq_some_iff.mpr (by rw [hhost, List.append_assoc]; rfl)
        have hlabel : stripSuffix ['.'] (l.toList ++ ['.']) = some l.toList :=
          stripSuffix_eq_some_iff.mpr rfl
        simp only [hfront, hlabel, Option.bind_eq_bind, Option.bind_some]
        rw [if_neg (not_or.mpr ⟨hne, hdot⟩), String.ofList_toList]
        exact surfaceOf_eq_some_iff.mpr hl

/-! ## What does not change the answer -/

/-- Trailing dots go, whatever stood before them. -/
theorem cut_append_dots (text : List Char) {dots : List Char} (hdots : ∀ c ∈ dots, c = '.') :
    ((text ++ dots).takeWhile (· != ':')).rdropWhile (· == '.') =
      (text.takeWhile (· != ':')).rdropWhile (· == '.') := by
  by_cases hcolon : ':' ∈ text
  · obtain ⟨front, back, rfl, _⟩ := List.eq_append_cons_of_mem hcolon
    rw [List.append_assoc, List.cons_append, takeWhile_append_cons, takeWhile_append_cons]
  · have hall : ∀ c ∈ text, (c != ':') = true := fun c hc =>
      bne_iff_ne.mpr fun h => hcolon (h ▸ hc)
    have hdotted : ∀ c ∈ dots, (c != ':') = true := by
      intro c hc
      rw [hdots c hc]
      decide
    rw [List.takeWhile_append_of_pos hall, List.takeWhile_eq_self_iff.mpr hdotted,
      List.takeWhile_eq_self_iff.mpr hall]
    exact rdropWhile_append_of_pos text fun c hc => beq_iff_eq.mpr (hdots c hc)

/-- The blanks around a host, its case, its port and its trailing dots are not part
of its name. -/
theorem hostName_decorated {host host' front back dots port : List Char}
    (htrim : trim host = host) (hcase : eqIgnoreAsciiCase host' host = true)
    (hfront : ∀ c ∈ front, isWhitespace c = true) (hback : ∀ c ∈ back, isWhitespace c = true)
    (hdots : ∀ c ∈ dots, c = '.') (hport : port = [] ∨ ∃ digits, port = ':' :: digits) :
    hostName (.ofList (front ++ (host' ++ dots ++ port) ++ back)) = hostName (.ofList host) := by
  have hlower : toAsciiLowercase dots = dots := by
    refine (List.map_congr_left fun c hc => ?_).trans (List.map_id dots)
    rw [hdots c hc]
    rfl
  have hsolid : ∀ c ∈ dots, isWhitespace c = false := by
    intro c hc
    rw [hdots c hc]
    decide
  rw [hostName_eq, hostName_eq, String.toList_ofList, String.toList_ofList,
    trim_append _ hfront hback, ← trim_toAsciiLowercase, ← trim_toAsciiLowercase,
    toAsciiLowercase_append, toAsciiLowercase_append, beq_iff_eq.mp hcase, hlower]
  have hname : trim (toAsciiLowercase host) = toAsciiLowercase host := by
    rw [trim_toAsciiLowercase, htrim]
  rw [hname]
  generalize toAsciiLowercase host = name at hname
  rcases hport with hport | ⟨digits, hport⟩
  · rw [hport, toAsciiLowercase, List.map_nil, List.append_nil, trim_append_solid hname hsolid]
    exact cut_append_dots name hdots
  · have hcolon : ∀ c ∈ dots ++ [':'], isWhitespace c = false := by
      intro c hc
      rcases List.mem_append.mp hc with hc | hc
      · exact hsolid c hc
      · rw [List.mem_singleton.mp hc]
        decide
    have hsplit : name ++ dots ++ toAsciiLowercase port =
        (name ++ (dots ++ [':'])) ++ toAsciiLowercase digits := by
      rw [hport, List.append_assoc, List.append_assoc, List.append_assoc]
      rfl
    rw [hsplit, trim_append_of_trim (trim_append_solid hname hcolon) (by simp),
      ← List.append_assoc, List.append_assoc, List.singleton_append, takeWhile_append_cons]
    exact cut_append_dots name hdots

/-! ## Look-alikes -/

theorem IsLabel.dot_not_mem {label : List Char} (h : IsLabel label) : '.' ∉ label := by
  obtain ⟨s, l, hl, rfl⟩ := h
  exact (dot_not_mem_label hl).2

/-- What is neither the apex nor one label in front of it is not ours. -/
theorem resolve_eq_none {hostHeader apex : String} (hne : hostName hostHeader ≠ apexName apex)
    (hlabel : ∀ l, IsLabel l → hostName hostHeader ≠ l ++ '.' :: apexName apex) :
    resolve hostHeader apex = none := by
  rcases hresolve : resolve hostHeader apex with _ | s
  · rfl
  · rcases resolve_eq_some_iff.mp hresolve with h | ⟨l, hl, hhost⟩
    · exact absurd h.1 hne
    · exact absurd hhost (hlabel l.toList ⟨s, l, hl, rfl⟩)

/-- A longer text is not the apex. -/
theorem append_ne_self {front apex : List Char} (h : front ≠ []) : front ++ apex ≠ apex := by
  intro heq
  have hlen := congrArg List.length heq
  rw [List.length_append] at hlen
  exact h (List.length_eq_zero_iff.mp (by omega))

section LookAlike

variable {hostHeader apex : String} {left right label : List Char}

/-- Any other prefix, a textual one included. -/
theorem resolve_of_prefix (hhost : hostName hostHeader = left ++ apexName apex) (hne : left ≠ [])
    (hother : ∀ l, IsLabel l → left ≠ l ++ ['.']) : resolve hostHeader apex = none := by
  refine resolve_eq_none (hhost ▸ append_ne_self hne) fun l hl heq => hother l hl ?_
  have hsplit : left ++ apexName apex = (l ++ ['.']) ++ apexName apex := by
    rw [← hhost, heq, List.append_assoc]
    rfl
  exact List.append_cancel_right hsplit

/-- A further label on the left. -/
theorem resolve_of_two_labels
    (hhost : hostName hostHeader = left ++ '.' :: label ++ '.' :: apexName apex) :
    resolve hostHeader apex = none := by
  have hfront : hostName hostHeader = (left ++ '.' :: label ++ ['.']) ++ apexName apex := by
    rw [hhost]
    simp only [List.append_assoc, List.cons_append, List.nil_append]
  refine resolve_of_prefix hfront (by simp) fun l hl hsame => ?_
  have hl' : l = left ++ '.' :: label := (List.append_cancel_right hsame).symm
  refine hl.dot_not_mem ?_
  rw [hl']
  exact List.mem_append_right _ List.mem_cons_self

/-- Anything behind a label and the apex. -/
theorem resolve_of_behind_label (hlabel : IsLabel label) (hne : right ≠ [])
    (hhost : hostName hostHeader = label ++ '.' :: apexName apex ++ right) :
    resolve hostHeader apex = none := by
  refine resolve_eq_none (fun heq => ?_) fun l hl heq => ?_
  · have hlen := congrArg List.length (hhost.symm.trans heq)
    rw [List.length_append, List.length_append, List.length_cons] at hlen
    omega
  · -- Neither label has a dot, so both end at the first dot of the host.
    have hsplit : label ++ '.' :: (apexName apex ++ right) = l ++ '.' :: apexName apex := by
      rw [← heq, hhost, List.append_assoc]
      rfl
    have hfirst : splitOnce '.' (l ++ '.' :: apexName apex) =
        some (label, apexName apex ++ right) :=
      splitOnce_eq_some_iff.mpr ⟨hsplit.symm, hlabel.dot_not_mem⟩
    rw [splitOnce_eq_some_iff.mpr ⟨rfl, hl.dot_not_mem⟩] at hfirst
    have htail := (Prod.mk.inj (Option.some.inj hfirst)).2
    have hlen := congrArg List.length htail
    rw [List.length_append] at hlen
    exact hne (List.length_eq_zero_iff.mp (by omega))

/-- Anything behind the apex. -/
theorem resolve_of_behind_apex (hhost : hostName hostHeader = apexName apex ++ right)
    (hne : right ≠ [])
    (hother : ∀ l, IsLabel l → apexName apex ++ right ≠ l ++ '.' :: apexName apex) :
    resolve hostHeader apex = none := by
  refine resolve_eq_none (fun heq => ?_) (hhost ▸ hother)
  have hlen := congrArg List.length (hhost.symm.trans heq)
  rw [List.length_append] at hlen
  exact hne (List.length_eq_zero_iff.mp (by omega))

end LookAlike

/-- The apex leads to the marketing site and a label in front of it to the surface of
the label.  Every other prefix, a further label, anything behind a host of ours and
a host that merely ends like the apex lead nowhere.  Case, port, trailing dots and
the blanks around a host make no difference. -/
theorem resolve_exact (apex : String) :
    (∀ hostHeader s, resolve hostHeader apex = some s ↔
      (hostName hostHeader = apexName apex ∧ s = .marketing) ∨
        ∃ l ∈ s.labels, hostName hostHeader = l.toList ++ '.' :: apexName apex) ∧
    (∀ hostHeader front, hostName hostHeader = front ++ apexName apex → front ≠ [] →
      (∀ l, IsLabel l → front ≠ l ++ ['.']) → resolve hostHeader apex = none) ∧
    (∀ hostHeader left label, hostName hostHeader = left ++ '.' :: label ++ '.' :: apexName apex →
      resolve hostHeader apex = none) ∧
    (∀ hostHeader label behind, IsLabel label → behind ≠ [] →
      hostName hostHeader = label ++ '.' :: apexName apex ++ behind →
        resolve hostHeader apex = none) ∧
    (∀ hostHeader behind, hostName hostHeader = apexName apex ++ behind → behind ≠ [] →
      (∀ l, IsLabel l → apexName apex ++ behind ≠ l ++ '.' :: apexName apex) →
        resolve hostHeader apex = none) ∧
    ∀ host host' front back dots port : List Char, trim host = host →
      eqIgnoreAsciiCase host' host = true → (∀ c ∈ front, isWhitespace c = true) →
      (∀ c ∈ back, isWhitespace c = true) → (∀ c ∈ dots, c = '.') →
      (port = [] ∨ ∃ digits, port = ':' :: digits) →
        resolve (.ofList (front ++ (host' ++ dots ++ port) ++ back)) apex =
          resolve (.ofList host) apex := by
  refine ⟨fun hostHeader s => resolve_eq_some_iff,
    fun hostHeader front hhost hne hother => resolve_of_prefix hhost hne hother,
    fun hostHeader left label hhost => resolve_of_two_labels hhost,
    fun hostHeader label behind hlabel hne hhost => resolve_of_behind_label hlabel hne hhost,
    fun hostHeader behind hhost hne hother => resolve_of_behind_apex hhost hne hother,
    fun host host' front back dots port htrim hcase hfront hback hdots hport => ?_⟩
  unfold resolve
  rw [hostName_decorated htrim hcase hfront hback hdots hport]

theorem resolve_exact_indiebuild :
    resolve "  APP.IndieBuild.dev.:443 " "indiebuild.dev" = some .app ∧
      resolve "app.indiebuild.dev.evil.test" "indiebuild.dev" = none := by
  obtain ⟨hiff, _, _, hbehind, _⟩ := resolve_exact "indiebuild.dev"
  have happ : IsLabel "app".toList := ⟨.app, "app", List.mem_cons_self, rfl⟩
  exact ⟨(hiff _ _).mpr (.inr ⟨"app", List.mem_cons_self, by decide +kernel⟩),
    hbehind _ _ ".evil.test".toList happ (by decide) (by decide +kernel)⟩

/-! ## Dispositions -/

/-- The host to which an anonymous visitor is sent. -/
def loginHost (s : Surface) (apex : String) : String :=
  s.label ++ "." ++ .ofList (apexName apex)

/-- Does the apex end in a blank, once its trailing dots are gone? -/
def EndsInBlank (apex : String) : Prop :=
  ∃ c, (apexName apex).getLast? = some c ∧ isWhitespace c = true

theorem dispose_eq_serve_iff {hostHeader apex : String} {authenticated : Bool} {s : Surface} :
    dispose hostHeader apex authenticated = .serve s ↔
      resolve hostHeader apex = some s ∧ s.isProductWeb = true ∧
        (authenticated = true ∨ s.allowsAnonymousLanding = true) := by
  unfold dispose
  rcases resolve hostHeader apex with _ | t
  · simp
  · cases t <;> cases authenticated <;> cases s <;> decide

/-- Only the signed-in shell sends a visitor elsewhere, and always to `user`. -/
theorem dispose_eq_redirect_iff {hostHeader apex : String} {authenticated : Bool} {s : Surface} :
    dispose hostHeader apex authenticated = .redirectToLogin s ↔
      resolve hostHeader apex = some .app ∧ authenticated = false ∧ s = .user := by
  unfold dispose
  rcases resolve hostHeader apex with _ | t
  · simp
  · cases t <;> cases authenticated <;> cases s <;> decide

theorem toAsciiLowercase_apexName (apex : String) :
    toAsciiLowercase (apexName apex) = apexName apex := by
  have hmap : apexName apex =
      toAsciiLowercase ((trim apex.toList).rdropWhile ((· == '.') ∘ Char.toLower)) :=
    rdropWhile_map Char.toLower (· == '.') (trim apex.toList)
  rw [hmap, toAsciiLowercase_idem]

theorem loginHost_toList (s : Surface) (apex : String) :
    (loginHost s apex).toList = s.label.toList ++ '.' :: apexName apex := by
  have hdot : ".".toList = ['.'] := rfl
  rw [loginHost, String.toList_append, String.toList_append, hdot, String.toList_ofList,
    List.append_assoc, List.singleton_append]

/-- A host in lower case, without port and trailing dots, keeps its name unless it has
blanks at its ends. -/
theorem hostName_eq_self_iff {host : String} (hlower : toAsciiLowercase host.toList = host.toList)
    (hcolon : ':' ∉ host.toList) (hdots : host.toList.rdropWhile (· == '.') = host.toList) :
    hostName host = host.toList ↔ trim host.toList = host.toList := by
  rw [hostName_eq]
  generalize host.toList = text at hlower hcolon hdots
  constructor
  · intro h
    refine trim_eq_self_of_length ?_
    have hcut := (List.rdropWhile_prefix (· == '.')
      ((toAsciiLowercase (trim text)).takeWhile (· != ':'))).length_le
    have htake := (List.takeWhile_prefix (l := toAsciiLowercase (trim text))
      (· != ':')).length_le
    have hlen : (toAsciiLowercase (trim text)).length = (trim text).length := List.length_map _
    rw [h] at hcut
    omega
  · intro h
    have hall : ∀ c ∈ text, (c != ':') = true := fun c hc =>
      bne_iff_ne.mpr fun heq => hcolon (heq ▸ hc)
    rw [h, hlower, List.takeWhile_eq_self_iff.mpr hall, hdots]

/-- The host of the login page keeps its name, unless the apex ends in a blank. -/
theorem hostName_loginHost_iff {apex : String} (hne : apexName apex ≠ [])
    (hcolon : ':' ∉ apexName apex) :
    hostName (loginHost .user apex) = (loginHost .user apex).toList ↔ ¬ EndsInBlank apex := by
  have hlist : (loginHost .user apex).toList = "user.".toList ++ apexName apex :=
    loginHost_toList .user apex
  have hlast : (loginHost .user apex).toList.getLast? = (apexName apex).getLast? := by
    rw [hlist, List.getLast?_append, List.getLast?_eq_some_getLast hne, Option.some_or]
  rw [hostName_eq_self_iff]
  · rw [trim_eq_self_iff, hlast]
    constructor
    · intro h hblank
      obtain ⟨c, hc, hspace⟩ := hblank
      rw [h.2 c hc] at hspace
      cases hspace
    · intro hblank
      refine ⟨fun c hc => ?_, fun c hc => ?_⟩
      · have hfirst : c = 'u' := by
          rw [hlist] at hc
          exact (Option.some.inj hc).symm
        rw [hfirst]
        decide
      · rw [← Bool.not_eq_true]
        exact fun hspace => hblank ⟨c, hc, hspace⟩
  · rw [hlist, toAsciiLowercase_append, toAsciiLowercase_apexName]
    rfl
  · rw [hlist, List.mem_append]
    exact not_or.mpr ⟨by decide, hcolon⟩
  · have hidem : (apexName apex).rdropWhile (· == '.') = apexName apex :=
      List.rdropWhile_idempotent ..
    refine List.rdropWhile_eq_self_iff.mpr fun htne hdot => ?_
    refine List.rdropWhile_eq_self_iff.mp hidem hne ?_
    rw [List.getLast?_eq_some_getLast htne, List.getLast?_eq_some_getLast hne,
      Option.some.injEq] at hlast
    rwa [← hlast]

/-- A redirected visitor is served where the redirect leads, unless the apex ends in
a blank. -/
theorem redirect_served_iff {hostHeader apex : String} {s : Surface}
    (h : dispose hostHeader apex false = .redirectToLogin s) :
    dispose (loginHost s apex) apex false = .serve s ↔ ¬ EndsInBlank apex := by
  obtain ⟨happ, _, rfl⟩ := dispose_eq_redirect_iff.mp h
  have hhost : hostName hostHeader = "app".toList ++ '.' :: apexName apex := by
    rcases resolve_eq_some_iff.mp happ with hmarketing | ⟨l, hl, hhost⟩
    · exact absurd hmarketing.2 (by decide)
    · rw [List.mem_singleton.mp hl] at hhost
      exact hhost
  have hne : apexName apex ≠ [] := by
    intro hnil
    rw [hnil, hostName_eq] at hhost
    exact rdropWhile_dot_ne _ _ hhost
  have hcolon : ':' ∉ apexName apex := by
    intro hmem
    refine colon_not_mem_hostName hostHeader ?_
    rw [hhost]
    exact List.mem_append_right _ (List.mem_cons_of_mem _ hmem)
  rw [← hostName_loginHost_iff hne hcolon, loginHost_toList, dispose_eq_serve_iff,
    resolve_eq_some_iff]
  constructor
  · intro hserve
    rcases hserve.1 with hmarketing | ⟨l, hl, htarget⟩
    · exact absurd hmarketing.2 (by decide)
    · rw [List.mem_singleton.mp hl] at htarget
      exact htarget
  · intro htarget
    exact ⟨.inr ⟨"user", List.mem_cons_self, htarget⟩, rfl, .inr rfl⟩

/-- The product server serves product surfaces only, to visitors who may see them,
and answers nothing on the admin, api and auth surfaces.  Where it sends a visitor
to sign in, the visitor is served, unless the apex ends in a blank. -/
theorem dispose_safe (apex : String) :
    (∀ hostHeader authenticated s, dispose hostHeader apex authenticated = .serve s →
      s.isProductWeb = true ∧ (authenticated = true ∨ s.allowsAnonymousLanding = true)) ∧
    (∀ hostHeader authenticated s, s.isAdmin = true ∨ s = .api ∨ s = .auth →
      (resolve hostHeader apex = some s → dispose hostHeader apex authenticated = .notFound) ∧
        dispose hostHeader apex authenticated ≠ .serve s ∧
          dispose hostHeader apex authenticated ≠ .redirectToLogin s) ∧
    ∀ hostHeader s, dispose hostHeader apex false = .redirectToLogin s →
      (dispose (loginHost s apex) apex false = .serve s ↔ ¬ EndsInBlank apex) := by
  refine ⟨fun hostHeader authenticated s h => (dispose_eq_serve_iff.mp h).2,
    fun hostHeader authenticated s hs => ⟨fun hresolve => ?_, fun h => ?_, fun h => ?_⟩,
    fun hostHeader s => redirect_served_iff⟩
  · unfold dispose
    rw [hresolve]
    rcases hs with hs | hs | hs
    · exact if_pos hs
    · rw [hs]
      rfl
    · rw [hs]
      rfl
  · have hproduct := (dispose_eq_serve_iff.mp h).2.1
    cases s <;> simp_all [Surface.isProductWeb, Surface.isAdmin]
  · have huser := (dispose_eq_redirect_iff.mp h).2.2
    cases s <;> simp_all [Surface.isAdmin]

theorem dispose_safe_indiebuild :
    dispose "user.indiebuild.dev" "indiebuild.dev" false = .serve .user ∧
      dispose "admin.indiebuild.dev" "indiebuild.dev" true = .notFound := by
  obtain ⟨_, hclosed, hredirect⟩ := dispose_safe "indiebuild.dev"
  have happ : dispose "app.indiebuild.dev" "indiebuild.dev" false = .redirectToLogin .user := by
    decide +kernel
  have hapex : apexName "indiebuild.dev" = "indiebuild.dev".toList := by decide +kernel
  have hadmin : resolve "admin.indiebuild.dev" "indiebuild.dev" = some .admin := by
    decide +kernel
  refine ⟨(hredirect _ _ happ).mpr fun hblank => ?_, (hclosed _ true .admin (.inl rfl)).1 hadmin⟩
  obtain ⟨c, hc, hspace⟩ := hblank
  rw [hapex] at hc
  cases hc
  cases hspace

/-- Trailing dots are taken off after the blanks, so an apex may end in a blank that
a host does not keep. -/
theorem redirect_lost_behind_blank :
    ¬ ∀ hostHeader apex s, dispose hostHeader apex false = .redirectToLogin s →
      dispose (loginHost s apex) apex false = .serve s := by
  intro h
  have happ : dispose "app.x ." "x ." false = .redirectToLogin .user := by decide +kernel
  have huser : dispose (loginHost .user "x .") "x ." false = .notFound := by decide +kernel
  rw [h _ _ _ happ] at huser
  cases huser

end IndieWorker
