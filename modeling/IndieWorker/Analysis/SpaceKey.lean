import IndieWorker.Analysis.Embedding
import IndieWorker.Lib.Text

/-!
# Forging the key of a comparison space

The key joins twelve fields with U+001F and escapes none of them.  It names one
space when the free fields hold no separator, but for the last field, where a
separator is harmless unless a truncation can be read in front of it.
-/

namespace IndieWorker
namespace Analysis

open Text

namespace ComparisonSpace

def SEPARATOR : Char := '\x1f'

/-- The field of the key for a truncation. -/
def truncationText : Option UInt16 → String
  | none => "-"
  | some w => toString w.toNat

/-! ## The fields of a key -/

def names (s : ComparisonSpace) : List String := [s.tenant, s.entity, s.model, s.modelRevision]

/-- The fields of a fixed form. -/
def kinds (s : ComparisonSpace) : List String :=
  [toString s.dimensions.toNat, s.metric.asStr, s.role.asStr]

def profiles (s : ComparisonSpace) : List String :=
  [s.promptProfile, s.chunkProfile, s.normalization]

theorem key_eq (s : ComparisonSpace) :
    s.key = "\x1f".intercalate (s.names ++ (s.kinds ++ (s.profiles ++
      [truncationText s.truncatedTo, s.contractVersion]))) := by
  cases s with
  | mk _ _ _ _ _ _ _ _ _ _ truncatedTo _ => cases truncatedTo <;> rfl

/-- The pieces of some fields between separators. -/
def pieces (fields : List String) : List (List Char) :=
  (fields.map String.toList).flatMap (·.splitOn SEPARATOR)

theorem pieces_append (a b : List String) : pieces (a ++ b) = pieces a ++ pieces b := by
  rw [pieces, List.map_append, List.flatMap_append]
  rfl

theorem pieces_of_plain {fields : List String} (h : ∀ f ∈ fields, SEPARATOR ∉ f.toList) :
    pieces fields = fields.map String.toList := by
  induction fields with
  | nil => rfl
  | cons field fields ih =>
    obtain ⟨hfield, hfields⟩ := List.forall_mem_cons.mp h
    rw [pieces, List.map_cons, List.flatMap_cons, List.splitOn_eq_singleton hfield]
    exact congrArg _ (ih hfields)

theorem digits_plain (n : Nat) : SEPARATOR ∉ (toString n).toList := by
  intro hmem
  rw [show (toString n).toList = Nat.toDigits 10 n from Nat.toList_repr] at hmem
  have hdigit : SEPARATOR.isDigit = true :=
    Nat.isDigit_of_mem_toDigits (by decide) (by decide) hmem
  exact absurd hdigit (by decide)

theorem truncationText_plain (t : Option UInt16) : SEPARATOR ∉ (truncationText t).toList := by
  cases t with
  | none => decide
  | some w => exact digits_plain w.toNat

theorem kinds_plain (s : ComparisonSpace) : ∀ f ∈ s.kinds, SEPARATOR ∉ f.toList := by
  have hmetric : SEPARATOR ∉ s.metric.asStr.toList := by
    cases s.metric <;> decide
  have hrole : SEPARATOR ∉ s.role.asStr.toList := by
    cases s.role <;> decide
  intro f hf
  simp only [kinds, List.mem_cons, List.not_mem_nil, or_false] at hf
  rcases hf with rfl | rfl | rfl
  · exact digits_plain _
  · exact hmetric
  · exact hrole

theorem splitOn_key (s : ComparisonSpace) :
    s.key.toList.splitOn SEPARATOR = pieces s.names ++ (s.kinds.map String.toList ++
      (pieces s.profiles ++
        (truncationText s.truncatedTo).toList :: s.contractVersion.toList.splitOn SEPARATOR)) := by
  have hlast : pieces [truncationText s.truncatedTo, s.contractVersion] =
      (truncationText s.truncatedTo).toList :: s.contractVersion.toList.splitOn SEPARATOR := by
    show (truncationText s.truncatedTo).toList.splitOn SEPARATOR ++
      (s.contractVersion.toList.splitOn SEPARATOR ++ []) = _
    rw [List.splitOn_eq_singleton (truncationText_plain _), List.append_nil]
    rfl
  rw [key_eq, String.toList_intercalate]
  show (['\x1f'].intercalate _).splitOn '\x1f' = _
  rw [splitOn_intercalate_flatMap (by simp [names])]
  show pieces _ = _
  rw [pieces_append, pieces_append, pieces_append, pieces_of_plain s.kinds_plain, hlast]

/-! ## Fields read back -/

theorem digits_inj {m n : Nat} (h : toString m = toString n) : m = n := by
  have hdigits : Nat.toDigits 10 m = Nat.toDigits 10 n := by
    rw [← Nat.toList_repr, ← Nat.toList_repr]
    exact congrArg String.toList h
  rw [← Nat.ofDigitChars_ten_toDigits (n := m), hdigits, Nat.ofDigitChars_ten_toDigits]

theorem truncationText_inj {t u : Option UInt16} (h : truncationText t = truncationText u) :
    t = u := by
  have hdash : ∀ n : Nat, "-" ≠ toString n := by
    intro n heq
    have hmem : '-' ∈ Nat.toDigits 10 n := by
      rw [← Nat.toList_repr, show n.repr = toString n from rfl, ← heq]
      decide
    exact absurd (Nat.isDigit_of_mem_toDigits (by decide) (by decide) hmem) (by decide)
  cases t with
  | none =>
    cases u with
    | none => rfl
    | some w => exact absurd h (hdash w.toNat)
  | some v =>
    cases u with
    | none => exact absurd h.symm (hdash v.toNat)
    | some w => rw [UInt16.toNat_inj.mp (digits_inj h)]

theorem eq_of_fields {a b : ComparisonSpace} (hnames : a.names = b.names)
    (hkinds : a.kinds = b.kinds) (hprofiles : a.profiles = b.profiles)
    (htruncated : truncationText a.truncatedTo = truncationText b.truncatedTo)
    (hversion : a.contractVersion = b.contractVersion) : a = b := by
  have hmetric : ∀ m n : Metric, m.asStr = n.asStr → m = n := by
    intro m n h
    cases m <;> cases n <;> first | rfl | exact absurd h (by decide)
  have hrole : ∀ r q : Role, r.asStr = q.asStr → r = q := by
    intro r q h
    cases r <;> cases q <;> first | rfl | exact absurd h (by decide)
  cases a with
  | mk =>
    cases b with
    | mk =>
      simp only [names, kinds, profiles, List.cons.injEq, and_true] at hnames hkinds hprofiles
      obtain ⟨rfl, rfl, rfl, rfl⟩ := hnames
      obtain ⟨hdim, hmet, hrol⟩ := hkinds
      obtain ⟨rfl, rfl, rfl⟩ := hprofiles
      obtain rfl := UInt16.toNat_inj.mp (digits_inj hdim)
      obtain rfl := hmetric _ _ hmet
      obtain rfl := hrole _ _ hrol
      obtain rfl := truncationText_inj htruncated
      obtain rfl := hversion
      rfl

/-! ## Which keys name one space -/

/-- No other space has the key. -/
def Unforgeable (a : ComparisonSpace) : Prop := ∀ b : ComparisonSpace, b.key = a.key → b = a

/-- The free fields hold no separator, and in front of a separator in the contract
version no truncation can be read. -/
structure Clean (a : ComparisonSpace) : Prop where
  names : ∀ f ∈ a.names, SEPARATOR ∉ f.toList
  profiles : ∀ f ∈ a.profiles, SEPARATOR ∉ f.toList
  version : ∀ part ∈ (a.contractVersion.toList.splitOn SEPARATOR).dropLast,
    ∀ t, part ≠ (truncationText t).toList

theorem map_toList_inj {fields others : List String}
    (h : fields.map String.toList = others.map String.toList) : fields = others :=
  List.map_injective_iff.mpr (fun _ _ heq => String.toList_inj.mp heq) h

/-- Fields of which there are as many as pieces are their pieces. -/
theorem fields_of_pieces {fields others : List String}
    (h : pieces fields = others.map String.toList) (hlen : fields.length = others.length) :
    fields = others := by
  have hself : pieces fields = fields.map String.toList := by
    apply flatMap_splitOn_eq_self
    show (pieces fields).length = _
    rw [h, List.length_map, List.length_map, hlen]
  rw [hself] at h
  exact map_toList_inj h

theorem unforgeable_of_clean {a : ComparisonSpace} (h : a.Clean) : a.Unforgeable := by
  intro b hkey
  have hpieces : b.key.toList.splitOn SEPARATOR = a.key.toList.splitOn SEPARATOR := by rw [hkey]
  rw [splitOn_key, splitOn_key, pieces_of_plain h.names, pieces_of_plain h.profiles] at hpieces
  have hnames : 4 ≤ (pieces b.names).length := length_le_flatMap_splitOn _ (b.names.map _)
  have hprofiles : 3 ≤ (pieces b.profiles).length :=
    length_le_flatMap_splitOn _ (b.profiles.map _)
  by_cases haligned : (pieces b.names).length = 4 ∧ (pieces b.profiles).length = 3
  · obtain ⟨hn, hrest⟩ := List.append_inj hpieces haligned.1
    obtain ⟨hk, hrest⟩ := List.append_inj hrest rfl
    obtain ⟨hp, hrest⟩ := List.append_inj hrest haligned.2
    obtain ⟨ht, hv⟩ := List.cons.inj hrest
    exact eq_of_fields (fields_of_pieces hn rfl) (map_toList_inj hk) (fields_of_pieces hp rfl)
      (String.toList_inj.mp ht) (String.toList_inj.mp (splitOn_inj hv))
  -- otherwise the truncation of `b` stands inside the contract version of `a`
  · exfalso
    let front := pieces b.names ++ b.kinds.map String.toList ++ pieces b.profiles
    let before := a.names.map String.toList ++ a.kinds.map String.toList ++
      a.profiles.map String.toList ++ [(truncationText a.truncatedTo).toList]
    have hwhole : front ++ (truncationText b.truncatedTo).toList ::
          b.contractVersion.toList.splitOn SEPARATOR =
        before ++ a.contractVersion.toList.splitOn SEPARATOR := by
      simpa only [front, before, List.append_assoc, List.singleton_append] using hpieces
    have hlen : before.length ≤ front.length := by
      have hbefore : before.length = 11 := rfl
      have hfront : front.length = (pieces b.names).length + 3 + (pieces b.profiles).length := by
        simp only [front, List.length_append, List.length_map]
        rfl
      omega
    have hfront : front <+: before ++ a.contractVersion.toList.splitOn SEPARATOR := by
      rw [← hwhole]
      exact List.prefix_append _ _
    obtain ⟨middle, hmiddle⟩ :=
      List.prefix_of_prefix_length_le (List.prefix_append _ _) hfront hlen
    rw [← hmiddle, List.append_assoc] at hwhole
    have hversion := List.append_cancel_left hwhole
    apply h.version _ _ b.truncatedTo rfl
    rw [← hversion, List.dropLast_append_of_ne_nil (by simp),
      List.dropLast_cons_of_ne_nil (List.splitOn_ne_nil _ _)]
    simp

/-! ## Shifting a boundary -/

theorem exists_split {f : String} (h : SEPARATOR ∈ f.toList) :
    ∃ u v : String, f = u ++ "\x1f" ++ v := by
  obtain ⟨front, back, heq⟩ := List.append_of_mem h
  refine ⟨.ofList front, .ofList back, ?_⟩
  have hback : f.toList = front ++ (['\x1f'] ++ back) := heq
  rw [← String.toList_inj, String.toList_append, String.toList_append, List.append_assoc, hback]
  simp

theorem ne_of_front {f u v : String} (h : f = u ++ "\x1f" ++ v) : u ≠ f := by
  intro hsame
  have hlen := congrArg (fun s : String => s.toList.length) (hsame.trans h)
  simp at hlen

theorem ne_of_back {f u v : String} (h : f = u ++ "\x1f" ++ v) : v ≠ f := by
  intro hsame
  have hlen := congrArg (fun s : String => s.toList.length) (hsame.trans h)
  simp at hlen
  omega

/-- A separator in a field lets a neighbour of the field take what is on one side
of it. -/
theorem plain_of_unforgeable {a : ComparisonSpace} (h : a.Unforgeable) :
    (∀ f ∈ a.names, SEPARATOR ∉ f.toList) ∧ ∀ f ∈ a.profiles, SEPARATOR ∉ f.toList := by
  constructor
  · intro f hf hsep
    obtain ⟨u, v, heq⟩ := exists_split hsep
    simp only [names, List.mem_cons, List.not_mem_nil, or_false] at hf
    rcases hf with rfl | rfl | rfl | rfl
    · have hsame := h { a with tenant := u, entity := v ++ "\x1f" ++ a.entity }
        (by simp [key, heq, String.intercalate_cons_cons, String.append_assoc])
      exact ne_of_front heq (congrArg tenant hsame)
    · have hsame := h { a with entity := u, model := v ++ "\x1f" ++ a.model }
        (by simp [key, heq, String.intercalate_cons_cons, String.append_assoc])
      exact ne_of_front heq (congrArg entity hsame)
    · have hsame := h { a with model := u, modelRevision := v ++ "\x1f" ++ a.modelRevision }
        (by simp [key, heq, String.intercalate_cons_cons, String.append_assoc])
      exact ne_of_front heq (congrArg model hsame)
    · have hsame := h { a with model := a.model ++ "\x1f" ++ u, modelRevision := v }
        (by simp [key, heq, String.intercalate_cons_cons, String.append_assoc])
      exact ne_of_back heq (congrArg modelRevision hsame)
  · intro f hf hsep
    obtain ⟨u, v, heq⟩ := exists_split hsep
    simp only [profiles, List.mem_cons, List.not_mem_nil, or_false] at hf
    rcases hf with rfl | rfl | rfl
    · have hsame := h { a with promptProfile := u, chunkProfile := v ++ "\x1f" ++ a.chunkProfile }
        (by simp [key, heq, String.intercalate_cons_cons, String.append_assoc])
      exact ne_of_front heq (congrArg promptProfile hsame)
    · have hsame := h { a with chunkProfile := u, normalization := v ++ "\x1f" ++ a.normalization }
        (by simp [key, heq, String.intercalate_cons_cons, String.append_assoc])
      exact ne_of_front heq (congrArg chunkProfile hsame)
    · have hsame := h { a with chunkProfile := a.chunkProfile ++ "\x1f" ++ u, normalization := v }
        (by simp [key, heq, String.intercalate_cons_cons, String.append_assoc])
      exact ne_of_back heq (congrArg normalization hsame)

/-- A piece that is not the last has a separator behind it, and one in front unless
it is the first. -/
theorem exists_part {text part : String}
    (h : part.toList ∈ (text.toList.splitOn SEPARATOR).dropLast) :
    ∃ y : String, text = part ++ "\x1f" ++ y ∨
      ∃ x, text = x ++ "\x1f" ++ part ++ "\x1f" ++ y := by
  have hself : text = "\x1f".intercalate ((text.toList.splitOn SEPARATOR).map String.ofList) := by
    rw [← String.toList_inj, String.toList_intercalate, List.map_map]
    have hid : String.toList ∘ String.ofList = id := funext fun l => String.toList_ofList
    rw [hid, List.map_id]
    exact (List.intercalate_splitOn SEPARATOR).symm
  obtain ⟨front, back, hdrop⟩ := List.append_of_mem h
  have hparts := List.dropLast_append_getLast (List.splitOn_ne_nil SEPARATOR text.toList)
  generalize (text.toList.splitOn SEPARATOR).getLast _ = last at hparts
  rw [hdrop] at hparts
  refine ⟨"\x1f".intercalate ((back ++ [last]).map String.ofList), ?_⟩
  have hne : (back ++ [last]).map String.ofList ≠ [] := by simp
  rw [← hparts, List.append_assoc, List.cons_append, List.map_append, List.map_cons,
    String.ofList_toList] at hself
  by_cases hfront : front = []
  · refine Or.inl ?_
    rw [hself, hfront, List.map_nil, List.nil_append, String.intercalate_cons_of_ne_nil hne]
  · refine Or.inr ⟨"\x1f".intercalate (front.map String.ofList), ?_⟩
    rw [hself, String.intercalate_append_of_ne_nil (by simpa using hfront) (by simp),
      String.intercalate_cons_of_ne_nil hne]
    simp only [String.append_assoc]

/-- A truncation in front of a separator ends the normalization of another space. -/
theorem version_of_unforgeable {a : ComparisonSpace} (h : a.Unforgeable) :
    ∀ part ∈ (a.contractVersion.toList.splitOn SEPARATOR).dropLast,
      ∀ t, part ≠ (truncationText t).toList := by
  intro part hpart t heq
  subst heq
  have hlonger : ∀ x : String, a.normalization ++ "\x1f" ++ x ≠ a.normalization := by
    intro x hsame
    have hlen := congrArg (fun s : String => s.toList.length) hsame
    simp at hlen
  obtain ⟨y, heq | ⟨x, heq⟩⟩ := exists_part hpart
  · have hsame := h { a with
        normalization := a.normalization ++ "\x1f" ++ truncationText a.truncatedTo
        truncatedTo := t
        contractVersion := y }
      (by simp [key_eq, names, kinds, profiles, heq, String.intercalate_cons_cons,
        String.append_assoc])
    exact hlonger _ (congrArg normalization hsame)
  · have hsame := h { a with
        normalization :=
          a.normalization ++ "\x1f" ++ (truncationText a.truncatedTo ++ "\x1f" ++ x)
        truncatedTo := t
        contractVersion := y }
      (by simp [key_eq, names, kinds, profiles, heq, String.intercalate_cons_cons,
        String.append_assoc])
    exact hlonger _ (congrArg normalization hsame)

/-- A space whose tenant holds the separator. -/
def separatedTenant : ComparisonSpace where
  tenant := "org\x1frun-log"
  entity := "x"
  model := "m"
  modelRevision := "r"
  dimensions := 8
  metric := .cosine
  role := .document
  promptProfile := "p"
  chunkProfile := "c"
  normalization := "l2"
  truncatedTo := none
  contractVersion := "3.1.0"

/-- It has the key of a space of another tenant. -/
theorem separatedTenant_key_forged :
    separatedTenant.key =
        { separatedTenant with tenant := "org", entity := "run-log\x1fx" : ComparisonSpace }.key ∧
      separatedTenant ≠ { separatedTenant with tenant := "org", entity := "run-log\x1fx" } := by
  constructor
  · decide +kernel
  · decide

/-- A key names one space exactly when its fields are clean. -/
theorem unforgeable_iff_clean (a : ComparisonSpace) : a.Unforgeable ↔ a.Clean := by
  constructor
  · intro h
    obtain ⟨hnames, hprofiles⟩ := plain_of_unforgeable h
    exact ⟨hnames, hprofiles, version_of_unforgeable h⟩
  · exact unforgeable_of_clean

end ComparisonSpace
end Analysis
end IndieWorker
