import IndieWorker.Analysis.Embedding
import IndieWorker.Analysis.Samples
import IndieWorker.Lib.LeastSquares
import Mathlib.Analysis.InnerProductSpace.PiL2

/-!
# The geometry of stored vectors

`similarity` of `src/analysis/embedding.rs` over the reals with the real square root.  The
vectors that may be compared are points of one Euclidean space.
-/

namespace IndieWorker
namespace Analysis

open ZeroPad

/-! ## Points -/

section Points

variable {n : Nat} {a b : List ℝ}

/-- The native vector as a point. -/
noncomputable def point (n : Nat) (vector : List ℝ) : EuclideanSpace ℝ (Fin n) :=
  WithLp.toLp _ fun i => vector.getD i 0

theorem dot_eq_inner (ha : a.length = n) (hb : b.length = n) :
    dot a b = inner ℝ (point n a) (point n b) := by
  rw [dot, pairSum, LeastSquares.sum_map_zip_eq_sum ha hb 0 0, real_inner_comm, point, point,
    EuclideanSpace.inner_toLp_toLp]
  rfl

theorem norm_eq_norm (ha : a.length = n) : norm Real.sqrt a = ‖point n a‖ := by
  rw [norm, dot_eq_inner ha ha, real_inner_self_eq_norm_sq, Real.sqrt_sq (norm_nonneg _)]

theorem l2_eq_dist (ha : a.length = n) (hb : b.length = n) :
    measure Real.sqrt .l2 a b = dist (point n a) (point n b) := by
  rw [measure, pairSum, LeastSquares.sum_map_zip_eq_sum ha hb 0 0, EuclideanSpace.dist_eq]
  refine congrArg Real.sqrt (Finset.sum_congr rfl fun i _ => ?_)
  rw [Real.dist_eq, sq_abs, sq]
  rfl

theorem cosine_eq (ha : a.length = n) (hb : b.length = n) :
    measure Real.sqrt .cosine a b =
      inner ℝ (point n a) (point n b) / (‖point n a‖ * ‖point n b‖) := by
  rw [measure, norm_eq_norm ha, norm_eq_norm hb, dot_eq_inner ha hb]
  split
  · next hzero =>
    rcases hzero with hzero | hzero
    · rw [hzero, zero_mul, div_zero]
    · rw [hzero, mul_zero, div_zero]
  · rfl

theorem point_injective (ha : a.length = n) (hb : b.length = n) (h : point n a = point n b) :
    a = b := by
  refine List.ext_getElem (ha.trans hb.symm) fun i hi hi' => ?_
  have hat := congrArg (fun p : EuclideanSpace ℝ (Fin n) => p ⟨i, ha ▸ hi⟩) h
  simpa [point, hi, hi'] using hat

/-- A multiple of a point is the point of the multiples. -/
theorem point_eq_smul_iff (ha : a.length = n) (hb : b.length = n) (k : ℝ) :
    point n b = k • point n a ↔ b = a.map (k * ·) := by
  have hsmul : k • point n a = point n (a.map (k * ·)) := by
    ext i
    have hi : i.val < a.length := ha ▸ i.isLt
    simp [point, List.getElem?_eq_getElem hi]
  rw [hsmul]
  constructor
  · exact point_injective hb (by rw [List.length_map, ha])
  · rintro rfl
    rfl

theorem point_ne_zero_iff (ha : a.length = n) : point n a ≠ 0 ↔ ∃ v ∈ a, v ≠ 0 := by
  rw [← not_iff_not, not_not]
  simp only [not_exists, not_and, not_not]
  constructor
  · intro h v hv
    obtain ⟨i, hi, rfl⟩ := List.getElem_of_mem hv
    have hat := congrArg (fun p : EuclideanSpace ℝ (Fin n) => p ⟨i, ha ▸ hi⟩) h
    simpa [point, hi] using hat
  · intro h
    ext i
    have hi : i.val < a.length := ha ▸ i.isLt
    simpa [point, List.getElem?_eq_getElem hi] using h _ (List.getElem_mem hi)

end Points

/-! ## Rows -/

/-- A row of the store: a vector of a space, and how it is kept. -/
structure Row (isFinite : ℝ → Bool) where
  space : ComparisonSpace
  vector : List ℝ
  stored : List ℝ
  kept : padForStorage isFinite vector space = .ok stored

namespace Row

variable {isFinite : ℝ → Bool} (p q r : Row isFinite)

def Comparable : Prop := p.space.comparableWith q.space = true

noncomputable def similarity : Except EmbeddingError ℝ :=
  Analysis.similarity Real.sqrt (p.stored, p.space) (q.stored, q.space) true

/-- The width of the vectors of the space. -/
def width : Nat := p.space.declared.toNat

theorem length_vector : p.vector.length = p.width := (padForStorage_ok p.kept).2.1

variable {p q r}

theorem Comparable.symm (h : p.Comparable q) : q.Comparable p :=
  (ComparisonSpace.comparable_fields h).2.2

/-- The spaces fall into classes. -/
theorem comparable_equivalence : Equivalence (@Row.Comparable isFinite) where
  refl p := by
    rw [Comparable, ComparisonSpace.comparableWith, decide_eq_true_iff]
    exact ⟨rfl, rfl, rfl, rfl, rfl, rfl, rfl, rfl, rfl, rfl, rfl⟩
  symm h := h.symm
  trans {p q r} h h' := by
    rw [Comparable, ComparisonSpace.comparableWith, decide_eq_true_iff] at h h' ⊢
    obtain ⟨h₁, h₂, h₃, h₄, h₅, h₆, h₇, h₈, h₉, h₁₀, h₁₁⟩ := h
    obtain ⟨h₁', h₂', h₃', h₄', h₅', h₆', h₇', h₈', h₉', h₁₀', h₁₁'⟩ := h'
    exact ⟨h₁.trans h₁', h₂.trans h₂', h₃.trans h₃', h₄.trans h₄', h₅.trans h₅', h₆.trans h₆',
      h₇.trans h₇', h₈.trans h₈', h₉.trans h₉', h₁₀.trans h₁₀', h₁₁.trans h₁₁'⟩

theorem Comparable.width_eq (h : p.Comparable q) : q.width = p.width := by
  rw [width, width, (ComparisonSpace.comparable_fields h).2.1]

theorem Comparable.length_vector (h : p.Comparable q) : q.vector.length = p.width := by
  rw [q.length_vector, h.width_eq]

/-- What is computed on the stored rows is what the metric makes of the native vectors. -/
theorem Comparable.similarity_eq (h : p.Comparable q) :
    p.similarity q = .ok (measure Real.sqrt p.space.metric p.vector q.vector) := by
  obtain ⟨hwide, -, hp⟩ := padForStorage_ok p.kept
  obtain ⟨-, -, hq⟩ := padForStorage_ok q.kept
  refine similarity_represents h ?_ hwide (.inl hp) (.inl hq)
  rw [p.length_vector, h.length_vector]

/-- A distance is one. -/
theorem Comparable.l2 (h : p.Comparable q) (hmetric : p.space.metric = .l2) :
    p.similarity q = .ok (dist (point p.width p.vector) (point p.width q.vector)) := by
  rw [h.similarity_eq, hmetric, l2_eq_dist p.length_vector h.length_vector]

theorem Comparable.cosine (h : p.Comparable q) (hmetric : p.space.metric = .cosine) :
    p.similarity q = .ok (inner ℝ (point p.width p.vector) (point p.width q.vector) /
      (‖point p.width p.vector‖ * ‖point p.width q.vector‖)) := by
  rw [h.similarity_eq, hmetric, cosine_eq p.length_vector h.length_vector]

theorem similarity_refused (h : ¬ p.Comparable q) :
    p.similarity q = .error (.incomparableSpaces p.space.key q.space.key) := by
  rw [similarity, Analysis.similarity, if_pos (by simpa [Comparable] using h)]

/-- Between vectors of length one every metric says the same. -/
theorem Comparable.normalized (h : p.Comparable q) (hp : dot p.vector p.vector = 1)
    (hq : dot q.vector q.vector = 1) :
    measure Real.sqrt .cosine p.vector q.vector = measure Real.sqrt .dot p.vector q.vector ∧
      measure Real.sqrt .l2 p.vector q.vector ^ 2 =
        2 - 2 * measure Real.sqrt .dot p.vector q.vector := by
  have hdot : measure Real.sqrt .dot p.vector q.vector =
      inner ℝ (point p.width p.vector) (point p.width q.vector) :=
    dot_eq_inner p.length_vector h.length_vector
  rw [dot_eq_inner p.length_vector p.length_vector, real_inner_self_eq_norm_sq] at hp
  rw [dot_eq_inner h.length_vector h.length_vector, real_inner_self_eq_norm_sq] at hq
  have hp' := (pow_eq_one_iff_of_nonneg (norm_nonneg _) two_ne_zero).mp hp
  have hq' := (pow_eq_one_iff_of_nonneg (norm_nonneg _) two_ne_zero).mp hq
  rw [cosine_eq p.length_vector h.length_vector, l2_eq_dist p.length_vector h.length_vector,
    dist_eq_norm, norm_sub_sq_real, hp', hq', hdot]
  constructor
  · rw [mul_one, div_one]
  · ring

end Row

/-- Rows fall into classes, across which nothing is compared.  Within a class the
distance is a metric on the native vectors, the cosine is one exactly between vectors
that point the same way and minus one between those that point opposite ways, and on
normalized vectors the three metrics are one. -/
theorem similarity_geometry (isFinite : ℝ → Bool) :
    Equivalence (@Row.Comparable isFinite) ∧
      ∀ p q : Row isFinite,
        (¬ p.Comparable q →
          p.similarity q = .error (.incomparableSpaces p.space.key q.space.key)) ∧
        (p.Comparable q →
          (p.space.metric = .l2 → ∃ d, p.similarity q = .ok d ∧ 0 ≤ d ∧
            (d = 0 ↔ p.vector = q.vector) ∧ q.similarity p = .ok d ∧
            ∀ r, q.Comparable r →
              ∃ e f, q.similarity r = .ok e ∧ p.similarity r = .ok f ∧ f ≤ d + e) ∧
          (p.space.metric = .cosine → ∃ c, p.similarity q = .ok c ∧ |c| ≤ 1 ∧
            (c = 1 ↔ (∃ v ∈ p.vector, v ≠ 0) ∧
              ∃ k, 0 < k ∧ q.vector = p.vector.map (k * ·)) ∧
            (c = -1 ↔ (∃ v ∈ p.vector, v ≠ 0) ∧
              ∃ k, k < 0 ∧ q.vector = p.vector.map (k * ·))) ∧
          (dot p.vector p.vector = 1 → dot q.vector q.vector = 1 →
            measure Real.sqrt .cosine p.vector q.vector =
                measure Real.sqrt .dot p.vector q.vector ∧
              measure Real.sqrt .l2 p.vector q.vector ^ 2 =
                2 - 2 * measure Real.sqrt .dot p.vector q.vector)) := by
  refine ⟨Row.comparable_equivalence, fun p q =>
    ⟨Row.similarity_refused, fun h => ⟨fun hmetric => ?_, fun hmetric => ?_, h.normalized⟩⟩⟩
  · have hmetric' : q.space.metric = .l2 := by
      rw [← (ComparisonSpace.comparable_fields h).1, hmetric]
    refine ⟨_, h.l2 hmetric, dist_nonneg, ?_, ?_, fun r hr => ?_⟩
    · rw [dist_eq_zero]
      exact ⟨point_injective p.length_vector h.length_vector, fun heq => by rw [heq]⟩
    · rw [h.symm.l2 hmetric', h.width_eq, dist_comm]
    · refine ⟨_, _, hr.l2 hmetric', (Row.comparable_equivalence.trans h hr).l2 hmetric, ?_⟩
      rw [h.width_eq]
      exact dist_triangle _ _ _
  · refine ⟨_, h.cosine hmetric, abs_real_inner_div_norm_mul_norm_le_one _ _, ?_, ?_⟩
    · rw [real_inner_div_norm_mul_norm_eq_one_iff, point_ne_zero_iff p.length_vector]
      simp only [point_eq_smul_iff p.length_vector h.length_vector]
    · rw [real_inner_div_norm_mul_norm_eq_neg_one_iff, point_ne_zero_iff p.length_vector]
      simp only [point_eq_smul_iff p.length_vector h.length_vector]

/-- A query and a document that point the same way. -/
theorem similarity_geometry_planar :
    let query : Row fun _ => true := ⟨planar .query, [3, 4], pad storageSlots [3, 4], rfl⟩
    let document : Row fun _ => true := ⟨planar .document, [6, 8], pad storageSlots [6, 8], rfl⟩
    query.similarity document = .ok 1 := by
  intro query document
  have hcomparable : query.Comparable document := by
    show (planar .query).comparableWith (planar .document) = true
    decide
  obtain ⟨c, hc, -, hone, -⟩ := ((similarity_geometry fun _ => true).2 query document).2
    hcomparable |>.2.1 rfl
  have hc' : c = 1 := hone.mpr ⟨⟨3, by simp [query], by norm_num⟩, 2, two_pos, by
    norm_num [query, document]⟩
  rw [hc, hc']

end Analysis
end IndieWorker
