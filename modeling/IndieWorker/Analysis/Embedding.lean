import IndieWorker.Lib.Decision
import IndieWorker.Lib.ZeroPad
import Mathlib.Algebra.Field.Basic
import Mathlib.Tactic.Ring

/-!
# Embedding storage

`src/analysis/embedding.rs`: every embedding is stored in one width, shorter ones
with a tail of zeros, and compared only within its comparison space.  Components
are the elements of a field, and the square root is any function on it.
-/

namespace IndieWorker
namespace Analysis

open Decision ZeroPad

/-- Storage width for every embedding. -/
def storageSlots : Nat := 4100

inductive Metric where
  | dot
  | cosine
  | l2
  deriving DecidableEq, Repr

def Metric.asStr : Metric → String
  | dot => "dot"
  | cosine => "cosine"
  | l2 => "l2"

inductive Role where
  | query
  | document
  deriving DecidableEq, Repr

def Role.asStr : Role → String
  | query => "query"
  | document => "document"

/-- The fields that decide whether two vectors may be compared. -/
structure ComparisonSpace where
  tenant : String
  entity : String
  model : String
  modelRevision : String
  dimensions : UInt16
  metric : Metric
  role : Role
  promptProfile : String
  chunkProfile : String
  normalization : String
  truncatedTo : Option UInt16
  contractVersion : String
  deriving DecidableEq

namespace ComparisonSpace

/-- A stable key for the space. -/
def key (s : ComparisonSpace) : String :=
  let truncated :=
    match s.truncatedTo with
    | none => "-"
    | some w => toString w.toNat
  "\x1f".intercalate
    [s.tenant, s.entity, s.model, s.modelRevision, toString s.dimensions.toNat, s.metric.asStr,
      s.role.asStr, s.promptProfile, s.chunkProfile, s.normalization, truncated,
      s.contractVersion]

/-- Identical except for the role. -/
def comparableWith (s other : ComparisonSpace) : Bool :=
  s.tenant = other.tenant ∧ s.entity = other.entity ∧ s.model = other.model ∧
    s.modelRevision = other.modelRevision ∧ s.dimensions = other.dimensions ∧
      s.metric = other.metric ∧ s.promptProfile = other.promptProfile ∧
        s.chunkProfile = other.chunkProfile ∧ s.normalization = other.normalization ∧
          s.truncatedTo = other.truncatedTo ∧ s.contractVersion = other.contractVersion

/-- The width of the vectors of the space. -/
def declared (s : ComparisonSpace) : UInt16 := s.truncatedTo.getD s.dimensions

end ComparisonSpace

/-- Why a vector or a comparison was refused. -/
inductive EmbeddingError where
  | tooWide (got max : Nat)
  | dimensionMismatch (declared : UInt16) (got : Nat)
  | notFinite (index : Nat)
  | incomparableSpaces (left right : String)
  | spaceDisabled (space : String)
  deriving DecidableEq

section Vectors

variable {α : Type} [Field α] (sqrt : α → α) (isFinite : α → Bool)

/-- Pad a native vector into the storage width. -/
def padForStorage (vector : List α) (space : ComparisonSpace) :
    Except EmbeddingError (List α) :=
  if vector.length > storageSlots then .error (.tooWide vector.length storageSlots)
  else if vector.length ≠ space.declared.toNat then
    .error (.dimensionMismatch space.declared vector.length)
  else
    match vector.findIdx? fun v => !isFinite v with
    | some index => .error (.notFinite index)
    | none => .ok (pad storageSlots vector)

/-- Recover the native vector from a stored row. -/
def unpad (stored : List α) (space : ComparisonSpace) : List α :=
  stored.take (min space.declared.toNat stored.length)

def dot (a b : List α) : α := pairSum (fun x y => x * y) a b

def norm (a : List α) : α := sqrt (dot a a)

variable [DecidableEq α]

/-- What a metric makes of two vectors. -/
def measure (metric : Metric) (a b : List α) : α :=
  match metric with
  | .dot => dot a b
  | .cosine =>
    let na := norm sqrt a
    let nb := norm sqrt b
    if na = 0 ∨ nb = 0 then 0 else dot a b / (na * nb)
  | .l2 => sqrt (pairSum (fun x y => (x - y) * (x - y)) a b)

/-- Similarity between two vectors, refusing anything across spaces. -/
def similarity (left right : List α × ComparisonSpace) (enabled : Bool) :
    Except EmbeddingError α :=
  if !left.2.comparableWith right.2 then
    .error (.incomparableSpaces left.2.key right.2.key)
  else if !enabled then .error (.spaceDisabled left.2.key)
  else
    let n := min left.1.length right.1.length
    .ok (measure sqrt left.2.metric (left.1.take n) (right.1.take n))

end Vectors

/-! ## Metrics and padding -/

/-- Comparable spaces have one metric and one width, whichever comes first. -/
theorem ComparisonSpace.comparable_fields {s t : ComparisonSpace} (h : s.comparableWith t = true) :
    s.metric = t.metric ∧ s.declared = t.declared ∧ t.comparableWith s = true := by
  unfold comparableWith at h ⊢
  rw [decide_eq_true_iff] at h ⊢
  obtain ⟨h₁, h₂, h₃, h₄, hdim, hmetric, h₇, h₈, h₉, htrunc, h₁₁⟩ := h
  refine ⟨hmetric, ?_, h₁.symm, h₂.symm, h₃.symm, h₄.symm, hdim.symm, hmetric.symm, h₇.symm,
    h₈.symm, h₉.symm, htrunc.symm, h₁₁.symm⟩
  rw [declared, declared, hdim, htrunc]

section Metrics

variable {α : Type} [Field α]

theorem dot_pad {a b : List α} (h : a.length = b.length) (width : Nat) :
    dot (pad width a) (pad width b) = dot a b :=
  pairSum_pad (mul_zero 0) h width

theorem dot_comm (a b : List α) : dot a b = dot b a := pairSum_comm mul_comm a b

/-- What a stored vector is. -/
theorem padForStorage_ok {isFinite : α → Bool} {vector stored : List α} {space : ComparisonSpace}
    (h : padForStorage isFinite vector space = .ok stored) :
    vector.length ≤ storageSlots ∧ vector.length = space.declared.toNat ∧
      stored = pad storageSlots vector := by
  unfold padForStorage at h
  rw [refuse_eq_ok_iff, refuse_eq_ok_iff] at h
  obtain ⟨hwide, hdeclared, h⟩ := h
  refine ⟨Nat.le_of_not_lt hwide, Decidable.not_not.mp hdeclared, ?_⟩
  cases hfinite : vector.findIdx? fun v => !isFinite v with
  | some index =>
    rw [hfinite] at h
    cases h
  | none =>
    rw [hfinite] at h
    exact (Except.ok.inj h).symm

/-- A stored vector has the storage width, and unpadding recovers the native one. -/
theorem unpad_padForStorage {isFinite : α → Bool} {vector stored : List α}
    {space : ComparisonSpace} (h : padForStorage isFinite vector space = .ok stored) :
    stored.length = storageSlots ∧ unpad stored space = vector := by
  obtain ⟨hwide, hdeclared, hstored⟩ := padForStorage_ok h
  subst hstored
  have hlength : (pad storageSlots vector).length = storageSlots := length_pad hwide
  refine ⟨hlength, ?_⟩
  rw [unpad, hlength, ← hdeclared, Nat.min_eq_left hwide, take_pad]

variable [DecidableEq α] {sqrt : α → α}

/-- A metric does not see the padding of two vectors of one width. -/
theorem measure_pad (metric : Metric) {a b : List α} (h : a.length = b.length) (width : Nat) :
    measure sqrt metric (pad width a) (pad width b) = measure sqrt metric a b := by
  cases metric with
  | dot => exact dot_pad h width
  | cosine =>
    unfold measure norm
    rw [dot_pad h, dot_pad rfl, dot_pad rfl]
  | l2 =>
    unfold measure
    rw [pairSum_pad (by ring) h]

/-- A metric is symmetric. -/
theorem measure_comm (metric : Metric) (a b : List α) :
    measure sqrt metric a b = measure sqrt metric b a := by
  cases metric with
  | dot => exact dot_comm a b
  | cosine =>
    unfold measure
    dsimp only
    rw [dot_comm a b, mul_comm]
    exact if_congr or_comm rfl rfl
  | l2 =>
    unfold measure
    rw [pairSum_comm fun x y => by ring]

/-- Enabled, comparable vectors are measured on the width they share. -/
theorem similarity_enabled {left right : List α × ComparisonSpace}
    (h : left.2.comparableWith right.2 = true) :
    similarity sqrt left right true =
      .ok (measure sqrt left.2.metric (left.1.take (min left.1.length right.1.length))
        (right.1.take (min left.1.length right.1.length))) := by
  unfold similarity
  rw [h]
  rfl

/-- A vector as it is stored, or as the model made it. -/
def Represents (stored vector : List α) (v : List α) : Prop := v = stored ∨ v = vector

/-- Vectors of one width are measured alike, padded or not. -/
theorem similarity_represents {a b v w : List α} {s t : ComparisonSpace}
    (hcomparable : s.comparableWith t = true) (hlength : a.length = b.length)
    (hwide : a.length ≤ storageSlots) (hv : Represents (pad storageSlots a) a v)
    (hw : Represents (pad storageSlots b) b w) :
    similarity sqrt (v, s) (w, t) true = .ok (measure sqrt s.metric a b) := by
  rw [similarity_enabled hcomparable]
  have ha : (pad storageSlots a).length = storageSlots := length_pad hwide
  have hb : (pad storageSlots b).length = storageSlots := length_pad (hlength ▸ hwide)
  dsimp only
  rcases hv with rfl | rfl
  · rcases hw with rfl | rfl
    · rw [ha, hb, min_self, List.take_of_length_le ha.le, List.take_of_length_le hb.le,
        measure_pad _ hlength]
    · rw [ha, ← hlength, Nat.min_eq_right hwide, take_pad, hlength, List.take_length]
  · rcases hw with rfl | rfl
    · rw [hb, Nat.min_eq_left hwide, List.take_length, hlength, take_pad]
    · rw [← hlength, min_self, List.take_length, hlength, List.take_length]

/-- Zero padding is invisible: stored vectors have the storage width, unpadding
recovers the native vector, and comparable vectors have one similarity, whichever of
the two is stored, native, left or right. -/
theorem padding_invisible (sqrt : α → α) (isFinite : α → Bool) {a b storedA storedB : List α}
    {s t : ComparisonSpace} (hcomparable : s.comparableWith t = true)
    (ha : padForStorage isFinite a s = .ok storedA)
    (hb : padForStorage isFinite b t = .ok storedB) :
    (storedA.length = storageSlots ∧ unpad storedA s = a) ∧
    (storedB.length = storageSlots ∧ unpad storedB t = b) ∧
    ∃ d, ∀ v w, Represents storedA a v → Represents storedB b w →
      similarity sqrt (v, s) (w, t) true = .ok d ∧
        similarity sqrt (w, t) (v, s) true = .ok d := by
  obtain ⟨hwide, hdeclared, hstoredA⟩ := padForStorage_ok ha
  obtain ⟨hwide', hdeclared', hstoredB⟩ := padForStorage_ok hb
  obtain ⟨hmetric, hwidth, hcomparable'⟩ := ComparisonSpace.comparable_fields hcomparable
  have hlength : a.length = b.length := by rw [hdeclared, hdeclared', hwidth]
  refine ⟨unpad_padForStorage ha, unpad_padForStorage hb, measure sqrt s.metric a b,
    fun v w hv hw => ?_⟩
  subst hstoredA hstoredB
  constructor
  · exact similarity_represents hcomparable hlength hwide hv hw
  · rw [similarity_represents hcomparable' hlength.symm hwide' hw hv, ← hmetric, measure_comm]

end Metrics

/-- A space of two-component vectors. -/
def planar (role : Role) : ComparisonSpace where
  tenant := "org_acme"
  entity := "run-log"
  model := "m"
  modelRevision := "2026-05"
  dimensions := 2
  metric := .cosine
  role := role
  promptProfile := "default"
  chunkProfile := "lines-512"
  normalization := "l2"
  truncatedTo := none
  contractVersion := "3.1.0"

theorem padding_invisible_of_planar : ∃ d,
    similarity id ([3, 4], planar .query) (pad storageSlots [1, 2], planar .document) true =
        .ok d ∧
      similarity id ([1, 2], planar .document) ([3, 4], planar .query) true = .ok (d : ℚ) := by
  have ha : padForStorage (fun _ => true) [3, 4] (planar .query) =
      .ok (pad storageSlots [(3 : ℚ), 4]) := rfl
  have hb : padForStorage (fun _ => true) [1, 2] (planar .document) =
      .ok (pad storageSlots [(1 : ℚ), 2]) := rfl
  obtain ⟨_, _, d, hd⟩ := padding_invisible id (fun _ => true) (by decide) ha hb
  exact ⟨d, (hd [3, 4] _ (Or.inr rfl) (Or.inl rfl)).1,
    (hd [3, 4] [1, 2] (Or.inr rfl) (Or.inr rfl)).2⟩

end Analysis
end IndieWorker
