import IndieWorker.Analysis.Pearson
import IndieWorker.Analysis.Regression
import Mathlib.Data.String.Basic

/-!
# Discovery

`discover` of `src/analysis/regression.rs`: candidate features, tested one by one
and corrected together.  The correlation functions are parameters, and may answer
NaN, as `pearson` does where its sums overflow.
-/

namespace IndieWorker
namespace Analysis

open SortBy PartialCmp

/-- A number of the program, read as a rational where it is one. -/
abbrev Double : Type := Nan ℚ

/-- A correlation as the program holds it. -/
abbrev DoubleCorrelation : Type := Samples.Correlation Double Double

/-- One candidate relationship, after multiple-testing correction. -/
structure Finding where
  feature : String
  correlation : DoubleCorrelation
  qValue : Double
  significant : Bool
  deriving DecidableEq

/-- The result of a discovery scan. -/
structure Discovery where
  findings : List Finding
  candidatesExamined : Nat
  skipped : List (String × StatsError)
  falseDiscoveryRate : Double
  deriving DecidableEq

variable {ν : Type}

/-- One turn of the loop: the names and the correlations of the features tested so
far, and the features skipped. -/
def scan (correlate : List ν → Except StatsError DoubleCorrelation)
    (state : List String × List DoubleCorrelation × List (String × StatsError))
    (feature : String × List ν) :
    List String × List DoubleCorrelation × List (String × StatsError) :=
  match correlate feature.2 with
  | .ok correlation => (state.1 ++ [feature.1], state.2.1 ++ [correlation], state.2.2)
  | .error error => (state.1, state.2.1, state.2.2 ++ [(feature.1, error)])

/-- Strongest correlation first, then by name. -/
def compareFindings (a b : Finding) : Ordering :=
  (cmpOrEqual b.correlation.r.abs a.correlation.r.abs).then (compare a.feature b.feature)

/-- The correlation function of a scan. -/
def correlateWith (spearman pearson : List ν → List ν → Except StatsError DoubleCorrelation)
    (response : List ν) (monotone : Bool) (values : List ν) : Except StatsError DoubleCorrelation :=
  if monotone then spearman values response else pearson values response

/-- Scan candidate features for association with the response. -/
def discover (spearman pearson : List ν → List ν → Except StatsError DoubleCorrelation)
    (features : List (String × List ν)) (response : List ν) (falseDiscoveryRate : Double)
    (monotone : Bool) : Discovery :=
  let scanned := features.foldl (scan (correlateWith spearman pearson response monotone))
    ([], [], [])
  let names := scanned.1
  let correlations := scanned.2.1
  let pValues := correlations.map fun c => c.pValue
  let qValues := benjaminiHochberg pValues
  let findings := (((names.zip correlations).zip qValues).map fun x =>
    (⟨x.1.1, x.1.2, x.2, isAtMost x.2 falseDiscoveryRate⟩ : Finding)).filter Finding.significant
  ⟨sortBy compareFindings findings, features.length, scanned.2.2, falseDiscoveryRate⟩

/-! ## What a scan tests -/

/-- The features that can be tested, with their correlations. -/
def tested (correlate : List ν → Except StatsError DoubleCorrelation)
    (features : List (String × List ν)) : List (String × DoubleCorrelation) :=
  features.filterMap fun feature =>
    match correlate feature.2 with
    | .ok correlation => some (feature.1, correlation)
    | .error _ => none

/-- The features that cannot be tested, with their errors. -/
def untested (correlate : List ν → Except StatsError DoubleCorrelation)
    (features : List (String × List ν)) : List (String × StatsError) :=
  features.filterMap fun feature =>
    match correlate feature.2 with
    | .ok _ => none
    | .error error => some (feature.1, error)

variable {correlate : List ν → Except StatsError DoubleCorrelation}

theorem tested_cons_ok {feature : String × List ν} {c : DoubleCorrelation}
    (h : correlate feature.2 = .ok c) (features : List (String × List ν)) :
    tested correlate (feature :: features) = (feature.1, c) :: tested correlate features := by
  rw [tested, List.filterMap_cons, h]
  rfl

theorem tested_cons_error {feature : String × List ν} {e : StatsError}
    (h : correlate feature.2 = .error e) (features : List (String × List ν)) :
    tested correlate (feature :: features) = tested correlate features := by
  rw [tested, List.filterMap_cons, h]
  rfl

theorem untested_cons_ok {feature : String × List ν} {c : DoubleCorrelation}
    (h : correlate feature.2 = .ok c) (features : List (String × List ν)) :
    untested correlate (feature :: features) = untested correlate features := by
  rw [untested, List.filterMap_cons, h]
  rfl

theorem untested_cons_error {feature : String × List ν} {e : StatsError}
    (h : correlate feature.2 = .error e) (features : List (String × List ν)) :
    untested correlate (feature :: features) = (feature.1, e) :: untested correlate features := by
  rw [untested, List.filterMap_cons, h]
  rfl

/-- The loop keeps names and correlations aligned. -/
theorem foldl_scan (features : List (String × List ν)) (names : List String)
    (correlations : List DoubleCorrelation) (skipped : List (String × StatsError)) :
    features.foldl (scan correlate) (names, correlations, skipped) =
      (names ++ (tested correlate features).map Prod.fst,
        correlations ++ (tested correlate features).map Prod.snd,
        skipped ++ untested correlate features) := by
  induction features generalizing names correlations skipped with
  | nil => simp [tested, untested]
  | cons feature features ih =>
    rw [List.foldl_cons]
    cases h : correlate feature.2 with
    | ok c =>
      have hscan : scan correlate (names, correlations, skipped) feature =
          (names ++ [feature.1], correlations ++ [c], skipped) := by rw [scan, h]
      rw [hscan, ih, tested_cons_ok h, untested_cons_ok h]
      simp
    | error e =>
      have hscan : scan correlate (names, correlations, skipped) feature =
          (names, correlations, skipped ++ [(feature.1, e)]) := by rw [scan, h]
      rw [hscan, ih, tested_cons_error h, untested_cons_error h]
      simp

/-- Every feature is tested or skipped, once. -/
theorem tested_untested_perm (features : List (String × List ν)) :
    ((tested correlate features).map Prod.fst ++ (untested correlate features).map Prod.fst).Perm
      (features.map Prod.fst) := by
  induction features with
  | nil => exact List.Perm.refl []
  | cons feature features ih =>
    cases h : correlate feature.2 with
    | ok c =>
      rw [tested_cons_ok h, untested_cons_ok h]
      exact ih.cons feature.1
    | error e =>
      rw [tested_cons_error h, untested_cons_error h]
      exact List.perm_middle.trans (ih.cons feature.1)

theorem tested_perm {features features' : List (String × List ν)} (h : features.Perm features') :
    (tested correlate features).Perm (tested correlate features') :=
  h.filterMap _

theorem tested_nodup {features : List (String × List ν)} (h : (features.map Prod.fst).Nodup) :
    ((tested correlate features).map Prod.fst).Nodup := by
  have hperm : ((tested correlate features).map Prod.fst ++
      (untested correlate features).map Prod.fst).Perm (features.map Prod.fst) :=
    tested_untested_perm features
  exact (List.nodup_append.mp (hperm.nodup_iff.mpr h)).1

/-! ## What a scan finds -/

/-- The p-values that are corrected together. -/
def pValues (tests : List (String × DoubleCorrelation)) : List Double :=
  tests.map fun t => t.2.pValue

/-- The tests whose corrected value is within a rate, in the order of the tests. -/
def findingsOf (tests : List (String × DoubleCorrelation)) (rate : Double) : List Finding :=
  let qValues := benjaminiHochberg (pValues tests)
  (tests.zipIdx.map fun x =>
    (⟨x.1.1, x.1.2, valueAt qValues x.2, isAtMost (valueAt qValues x.2) rate⟩ : Finding)).filter
      Finding.significant

theorem zip_eq_zipIdx {α : Type} {l : List α} {q : List Double} (h : q.length = l.length) :
    l.zip q = l.zipIdx.map fun x => (x.1, valueAt q x.2) := by
  apply List.ext_getElem
  · simp [h]
  · intro i h₁ h₂
    have hi : i < q.length := by
      rw [List.length_zip] at h₁
      omega
    rw [List.getElem_zip, List.getElem_map, List.getElem_zipIdx]
    rw [Nat.zero_add, valueAt, List.getD_eq_getElem _ _ hi]

/-- The pushed vectors, zipped and filtered, are the findings of the tests. -/
theorem findings_discover
    (spearman pearson : List ν → List ν → Except StatsError DoubleCorrelation)
    (features : List (String × List ν)) (response : List ν) (rate : Double) (monotone : Bool) :
    (discover spearman pearson features response rate monotone).findings =
      sortBy compareFindings
        (findingsOf (tested (correlateWith spearman pearson response monotone) features) rate) := by
  unfold discover findingsOf
  dsimp only
  rw [foldl_scan]
  dsimp only
  rw [List.nil_append, List.nil_append, List.map_map]
  generalize tested (correlateWith spearman pearson response monotone) features = tests
  have hzip : (tests.map Prod.fst).zip (tests.map Prod.snd) = tests := by
    rw [← List.unzip_fst, ← List.unzip_snd, List.zip_unzip]
  have hlength : (benjaminiHochberg (pValues tests)).length = tests.length := by
    rw [length_benjaminiHochberg, pValues, List.length_map]
  rw [hzip]
  show sortBy _ (((tests.zip (benjaminiHochberg (pValues tests))).map _).filter _) = _
  rw [zip_eq_zipIdx hlength, List.map_map]
  rfl

/-- A larger rate keeps what a smaller one finds. -/
theorem findingsOf_sublist (tests : List (String × DoubleCorrelation)) {rate rate' : Double}
    (h : isAtMost rate rate' = true) :
    (findingsOf tests rate).Sublist (findingsOf tests rate') := by
  unfold findingsOf
  dsimp only
  generalize benjaminiHochberg (pValues tests) = qValues
  induction tests.zipIdx with
  | nil => exact List.Sublist.refl []
  | cons t rest ih =>
    rw [List.map_cons, List.map_cons]
    cases hrate : isAtMost (valueAt qValues t.2) rate with
    | true =>
      have hrate' : isAtMost (valueAt qValues t.2) rate' = true := isAtMost_trans hrate h
      rw [hrate', List.filter_cons_of_pos rfl, List.filter_cons_of_pos rfl]
      exact ih.cons_cons _
    | false =>
      rw [List.filter_cons_of_neg Bool.false_ne_true]
      cases hrate' : isAtMost (valueAt qValues t.2) rate' with
      | true =>
        rw [List.filter_cons_of_pos rfl]
        exact ih.cons _
      | false =>
        rw [List.filter_cons_of_neg Bool.false_ne_true]
        exact ih

/-- Every test of a feature has its name. -/
theorem findingsOf_nodup {tests : List (String × DoubleCorrelation)}
    (h : (tests.map Prod.fst).Nodup) (rate : Double) :
    ((findingsOf tests rate).map Finding.feature).Nodup := by
  have hsub := (List.filter_sublist (p := Finding.significant)
    (l := tests.zipIdx.map fun x => (⟨x.1.1, x.1.2,
      valueAt (benjaminiHochberg (pValues tests)) x.2,
      isAtMost (valueAt (benjaminiHochberg (pValues tests)) x.2) rate⟩ : Finding))).map
        Finding.feature
  rw [List.map_map] at hsub
  have hnames : tests.zipIdx.map (fun x => x.1.1) = tests.map Prod.fst := by
    rw [← List.zipIdx_map_fst 0 tests, List.map_map, List.zipIdx_map_fst]
    rfl
  exact List.Nodup.sublist hsub (hnames ▸ h)

/-! ## Tests with p-values -/

/-- The p-value of every test is one. -/
def HavePValues (tests : List (String × DoubleCorrelation)) : Prop :=
  ∀ t ∈ tests, ∃ p, t.2.pValue = .number p ∧ 0 ≤ p ∧ p ≤ 1

/-- The number, if it is one. -/
def Double.value : Double → ℚ
  | .number x => x
  | .nan => 0

/-- What a test becomes. -/
def finding (values : List ℚ) (rate : Double) (t : String × DoubleCorrelation) : Finding :=
  ⟨t.1, t.2, .number (qValue values (Double.value t.2.pValue)),
    isAtMost (.number (qValue values (Double.value t.2.pValue))) rate⟩

section PValues

variable {tests : List (String × DoubleCorrelation)}

theorem HavePValues.pValues_eq (h : HavePValues tests) :
    pValues tests = (tests.map fun t => Double.value t.2.pValue).map Nan.number := by
  rw [pValues, List.map_map]
  refine List.map_congr_left fun t ht => ?_
  obtain ⟨p, hp, -⟩ := h t ht
  rw [Function.comp_apply, hp]
  rfl

theorem HavePValues.mem_values (h : HavePValues tests) :
    ∀ v ∈ tests.map fun t => Double.value t.2.pValue, 0 ≤ v ∧ v ≤ 1 := by
  intro v hv
  obtain ⟨t, ht, rfl⟩ := List.mem_map.mp hv
  obtain ⟨p, hp, hunit⟩ := h t ht
  rw [hp]
  exact hunit

theorem HavePValues.perm {tests' : List (String × DoubleCorrelation)} (h : HavePValues tests)
    (hperm : tests.Perm tests') : HavePValues tests' :=
  fun t ht => h t (hperm.mem_iff.mpr ht)

/-- What a test becomes depends on its own p-value and on the p-values together. -/
theorem HavePValues.findingsOf_eq (h : HavePValues tests) (rate : Double) :
    findingsOf tests rate =
      (tests.map (finding (tests.map fun t => Double.value t.2.pValue) rate)).filter
        Finding.significant := by
  unfold findingsOf
  rw [h.pValues_eq, benjaminiHochberg_map_number]
  dsimp only
  congr 1
  apply List.ext_getElem
  · simp
  · intro i h₁ h₂
    have hi : i < tests.length := by rwa [List.length_map] at h₂
    have hi' : i < (tests.map fun t => Double.value t.2.pValue).length := by
      rwa [List.length_map]
    have hvalue : valueAt (tests.map fun t => Double.value t.2.pValue) i =
        Double.value tests[i].2.pValue := by
      rw [valueAt, List.getD_eq_getElem _ _ hi']
      exact List.getElem_map _
    have hq := qValue_valueAt h.mem_values hi'
    rw [hvalue] at hq
    rw [List.getElem_map, List.getElem_map, List.getElem_zipIdx, Nat.zero_add,
      valueAt_map_number, finding, hq]

/-- Rearranging the tests rearranges what they become. -/
theorem HavePValues.findingsOf_perm {tests' : List (String × DoubleCorrelation)}
    (h : HavePValues tests) (hperm : tests.Perm tests') (rate : Double) :
    (findingsOf tests rate).Perm (findingsOf tests' rate) := by
  have hvalues := hperm.map fun t => Double.value t.2.pValue
  have hsame : tests'.map (finding (tests.map fun t => Double.value t.2.pValue) rate) =
      tests'.map (finding (tests'.map fun t => Double.value t.2.pValue) rate) := by
    apply List.map_congr_left
    intro t ht
    have hmem : Double.value t.2.pValue ∈ tests.map fun t => Double.value t.2.pValue :=
      List.mem_map_of_mem (hperm.mem_iff.mpr ht)
    rw [finding, finding, qValue_perm h.mem_values hvalues hmem]
  rw [h.findingsOf_eq, (h.perm hperm).findingsOf_eq, ← hsame]
  exact (hperm.map _).filter _

end PValues

/-! ## The order of the findings -/

/-- Decreasing strength, then increasing name.  NaN is not below anything. -/
def FindingLe (a b : Finding) : Prop :=
  ∃ x y, a.correlation.r = .number x ∧ b.correlation.r = .number y ∧
    (|y| < |x| ∨ |x| = |y| ∧ a.feature ≤ b.feature)

/-- The comparison of findings by the numbers of their correlations. -/
def compareValues : Finding → Finding → Ordering :=
  compareLex (fun a b => compareOn (fun f : Finding => |Double.value f.correlation.r|) b a)
    (compareOn Finding.feature)

instance : Std.TransCmp compareValues :=
  inferInstanceAs (Std.TransCmp (compareLex _ _))

section Order

variable {found found' : List Finding}

/-- Findings with numbers compare as these do. -/
theorem compareFindings_eq {a b : Finding} (ha : a.correlation.r.IsNumber)
    (hb : b.correlation.r.IsNumber) : compareFindings a b = compareValues a b := by
  obtain ⟨x, hx⟩ := ha
  obtain ⟨y, hy⟩ := hb
  unfold compareFindings compareValues compareLex compareOn
  dsimp only
  rw [hx, hy]
  rfl

theorem findingLe_of_isLE {a b : Finding} (ha : a.correlation.r.IsNumber)
    (hb : b.correlation.r.IsNumber) (h : (compareValues a b).isLE) : FindingLe a b := by
  obtain ⟨x, hx⟩ := ha
  obtain ⟨y, hy⟩ := hb
  refine ⟨x, y, hx, hy, ?_⟩
  unfold compareValues compareLex compareOn at h
  dsimp only at h
  rw [hx, hy, Ordering.isLE_then_iff_or, compare_lt_iff_lt] at h
  rcases h with hlt | ⟨heq, hle⟩
  · exact Or.inl hlt
  · exact Or.inr ⟨(compare_eq_iff_eq.mp heq).symm,
      compare_le_iff_le.mp (Ordering.ne_gt_iff_isLE.mpr hle)⟩

theorem sortBy_compareFindings (h : ∀ f ∈ found, f.correlation.r.IsNumber) :
    sortBy compareFindings found = sortBy compareValues found :=
  sortBy_congr fun a ha b hb => compareFindings_eq (h a ha) (h b hb)

/-- Findings with numbers come out in order. -/
theorem pairwise_compareFindings (h : ∀ f ∈ found, f.correlation.r.IsNumber) :
    (sortBy compareFindings found).Pairwise FindingLe := by
  rw [sortBy_compareFindings h]
  refine (pairwise_sortBy found).imp_of_mem fun {a b} ha hb hle => ?_
  exact findingLe_of_isLE (h a (mem_sortBy.mp ha)) (h b (mem_sortBy.mp hb)) hle

/-- Findings with numbers, of distinct features, have one order. -/
theorem sortBy_eq_of_nodup (hperm : found.Perm found')
    (h : ∀ f ∈ found, f.correlation.r.IsNumber) (hnodup : (found.map Finding.feature).Nodup) :
    sortBy compareFindings found = sortBy compareFindings found' := by
  rw [sortBy_compareFindings h,
    sortBy_compareFindings fun f hf => h f (hperm.mem_iff.mpr hf)]
  refine sortBy_eq_of_perm hperm fun a ha b hb heq => ?_
  have hnames : compare a.feature b.feature = .eq := (Ordering.then_eq_eq.mp heq).2
  exact List.inj_on_of_nodup_map hnodup ha hb (compare_eq_iff_eq.mp hnames)

end Order

/-! ## What a scan promises -/

/-- A scan tests or skips every feature once, finds the tests whose corrected value
is within the rate, strongest first, finds more at a larger rate, and does not
depend on the order of features with distinct names. -/
structure Discovers (spearman pearson : List ν → List ν → Except StatsError DoubleCorrelation)
    (features : List (String × List ν)) (response : List ν) (rate : Double) (monotone : Bool) :
    Prop where
  examined : (discover spearman pearson features response rate monotone).candidatesExamined =
    features.length
  skipped : (discover spearman pearson features response rate monotone).skipped =
    untested (correlateWith spearman pearson response monotone) features
  partition : ((tested (correlateWith spearman pearson response monotone) features).map Prod.fst ++
    (untested (correlateWith spearman pearson response monotone) features).map Prod.fst).Perm
      (features.map Prod.fst)
  found : (discover spearman pearson features response rate monotone).findings.Perm
    (findingsOf (tested (correlateWith spearman pearson response monotone) features) rate)
  ordered : (discover spearman pearson features response rate monotone).findings.Pairwise FindingLe
  raised : ∀ rate', isAtMost rate rate' = true →
    (discover spearman pearson features response rate monotone).findings.Subperm
      (discover spearman pearson features response rate' monotone).findings
  rearranged : ∀ features', features.Perm features' → (features.map Prod.fst).Nodup →
    (discover spearman pearson features response rate monotone).findings =
      (discover spearman pearson features' response rate monotone).findings

theorem perm_eq_of_length_le_one {α : Type} {l l' : List α} (h : l.Perm l')
    (hlength : l.length ≤ 1) : l = l' := by
  cases l with
  | nil => exact (List.nil_perm.mp h).symm
  | cons a rest =>
    have hrest : rest.length = 0 := by
      rw [List.length_cons] at hlength
      omega
    rw [List.length_eq_zero_iff.mp hrest] at h ⊢
    exact List.singleton_perm.mp h

section Scan

variable {spearman pearson : List ν → List ν → Except StatsError DoubleCorrelation}
  {features : List (String × List ν)} {response : List ν} {rate : Double} {monotone : Bool}

theorem found_perm :
    (discover spearman pearson features response rate monotone).findings.Perm
      (findingsOf (tested (correlateWith spearman pearson response monotone) features) rate) := by
  rw [findings_discover]
  exact sortBy_perm _ _

/-- Of two findings in order both have numbers. -/
theorem Discovers.isNumber (h : Discovers spearman pearson features response rate monotone)
    (hlength : 1 < (findingsOf (tested (correlateWith spearman pearson response monotone) features)
      rate).length) :
    ∀ f ∈ findingsOf (tested (correlateWith spearman pearson response monotone) features) rate,
      f.correlation.r.IsNumber := by
  intro f hf
  rw [← found_perm.length_eq] at hlength
  obtain ⟨i, hi, rfl⟩ := List.getElem_of_mem (found_perm.mem_iff.mpr hf)
  have hsorted := List.pairwise_iff_getElem.mp h.ordered
  by_cases hfirst : i = 0
  · obtain ⟨x, -, hx, -⟩ := hsorted i 1 hi hlength (by omega)
    exact ⟨x, hx⟩
  · obtain ⟨-, y, -, hy, -⟩ := hsorted 0 i (by omega) hi (by omega)
    exact ⟨y, hy⟩

/-- A scan keeps its promises where the tests have p-values and what it finds is at most
one test, or has numbers for its correlations. -/
theorem discovers_of_numbers
    (hpValues : HavePValues (tested (correlateWith spearman pearson response monotone) features))
    (h : (findingsOf (tested (correlateWith spearman pearson response monotone) features)
        rate).length ≤ 1 ∨
      ∀ f ∈ findingsOf (tested (correlateWith spearman pearson response monotone) features) rate,
        f.correlation.r.IsNumber) :
    Discovers spearman pearson features response rate monotone := by
  refine
    { examined := rfl
      skipped := ?_
      partition := tested_untested_perm features
      found := found_perm
      ordered := ?_
      raised := fun rate' hrate => ?_
      rearranged := fun features' hperm hnodup => ?_ }
  · unfold discover
    dsimp only
    rw [foldl_scan]
    rfl
  · rcases h with hlength | hnumbers
    · rw [← found_perm.length_eq] at hlength
      refine List.pairwise_iff_getElem.mpr fun i j hi hj hij => ?_
      omega
    · rw [findings_discover]
      exact pairwise_compareFindings hnumbers
  · rw [findings_discover, findings_discover]
    exact ((sortBy_perm _ _).subperm.trans (findingsOf_sublist _ hrate).subperm).trans
      (sortBy_perm _ _).symm.subperm
  · have hsame := hpValues.findingsOf_perm (tested_perm hperm) rate
    rw [findings_discover, findings_discover]
    rcases h with hlength | hnumbers
    · rw [perm_eq_of_length_le_one hsame hlength]
    · exact sortBy_eq_of_nodup hsame hnumbers (findingsOf_nodup (tested_nodup hnodup) rate)

end Scan

/-- What exact arithmetic answers, as the program holds it. -/
def exactly (c : Samples.Correlation ℚ (Samples.PValue ℚ)) : DoubleCorrelation :=
  ⟨.number c.r, .number c.pValue, c.observations⟩

/-- With correlations that are exact, as `Samples.pearson` answers them, nothing breaks. -/
theorem discovers_of_exact
    (spearman pearson : List ν → List ν → Except StatsError (Samples.Correlation ℚ
      (Samples.PValue ℚ)))
    (features : List (String × List ν)) (response : List ν) (rate : Double) (monotone : Bool) :
    Discovers (fun x y => (spearman x y).map exactly) (fun x y => (pearson x y).map exactly)
      features response rate monotone := by
  have hexact : ∀ values c, correlateWith (fun x y => (spearman x y).map exactly)
      (fun x y => (pearson x y).map exactly) response monotone values = .ok c →
      ∃ c', c = exactly c' := by
    intro values c h
    have hmap : ∀ r : Except StatsError (Samples.Correlation ℚ (Samples.PValue ℚ)),
        r.map exactly = .ok c → ∃ c', c = exactly c' := by
      intro r hr
      cases r with
      | error error => cases hr
      | ok c' => exact ⟨c', (Except.ok.inj hr).symm⟩
    unfold correlateWith at h
    split at h
    · exact hmap _ h
    · exact hmap _ h
  have htested : ∀ t ∈ tested (correlateWith (fun x y => (spearman x y).map exactly)
      (fun x y => (pearson x y).map exactly) response monotone) features,
      ∃ c', t.2 = exactly c' := by
    intro t ht
    obtain ⟨feature, -, hfeature⟩ := List.mem_filterMap.mp ht
    split at hfeature
    · next c hc =>
      cases hfeature
      exact hexact _ _ hc
    · cases hfeature
  refine discovers_of_numbers (fun t ht => ?_) (Or.inr fun f hf => ?_)
  · obtain ⟨c', hc⟩ := htested t ht
    rw [hc]
    exact ⟨c'.pValue, rfl, c'.pValue.property⟩
  · obtain ⟨x, hx, rfl⟩ := List.mem_map.mp (List.mem_filter.mp hf).1
    obtain ⟨c', hc⟩ := htested x.1 (List.fst_mem_of_mem_zipIdx hx)
    show x.1.2.r.IsNumber
    rw [hc]
    exact ⟨c'.r, rfl⟩

/-- Where the tests have p-values, as both correlation functions answer them, a scan keeps
its promises exactly if it finds one test at most, or only tests with a number for their
correlation. -/
theorem discovers_iff
    (spearman pearson : List ν → List ν → Except StatsError DoubleCorrelation)
    (features : List (String × List ν)) (response : List ν) (rate : Double) (monotone : Bool)
    (hpValues : HavePValues (tested (correlateWith spearman pearson response monotone) features)) :
    Discovers spearman pearson features response rate monotone ↔
      (findingsOf (tested (correlateWith spearman pearson response monotone) features)
          rate).length ≤ 1 ∨
        ∀ f ∈ findingsOf (tested (correlateWith spearman pearson response monotone) features) rate,
          f.correlation.r.IsNumber := by
  refine ⟨fun h => ?_, discovers_of_numbers hpValues⟩
  rw [or_iff_not_imp_left, not_le]
  exact h.isNumber

/-! ## A feature whose sums overflow -/

def weak : List Nat := [1, 2, 3, 4].map (10 ^ 10 * ·)

def strong : List Nat := [1, 2, 4, 3].map (10 ^ 10 * ·)

def overflowing : List Nat := [1, 2, 4, 3].map (10 ^ 300 * ·)

/-- What `pearson` answers for them. -/
def answers (values _response : List Nat) : Except StatsError DoubleCorrelation :=
  if values = overflowing then .ok ⟨.nan, .number 1, 4⟩
  else if values = weak then .ok ⟨.number (4 / 5), .number (1 / 5), 4⟩
  else .ok ⟨.number 1, .number 0, 4⟩

theorem discovers_iff_strong :
    Discovers answers answers [("weak", weak), ("strong", strong)] strong (.number (1 / 2))
      false := by
  have htested : tested (correlateWith answers answers strong false)
      [("weak", weak), ("strong", strong)] =
      [("weak", ⟨.number (4 / 5), .number (1 / 5), 4⟩),
        ("strong", ⟨.number 1, .number 0, 4⟩)] := by decide +kernel
  have hpValues : HavePValues (tested (correlateWith answers answers strong false)
      [("weak", weak), ("strong", strong)]) := by
    rw [htested]
    exact List.forall_mem_cons.mpr ⟨⟨_, rfl, by norm_num, by norm_num⟩,
      List.forall_mem_singleton.mpr ⟨_, rfl, le_rfl, zero_le_one⟩⟩
  refine (discovers_iff answers answers _ strong (.number (1 / 2)) false hpValues).mpr (Or.inr ?_)
  rw [htested]
  decide +kernel

/-- A correlation that is NaN lets a weaker finding stand before a stronger one, and the
order of the features decides which. -/
theorem overflow_breaks_the_order :
    ((discover answers answers [("a", weak), ("b", overflowing), ("c", strong)] strong
        (.number 1) false).findings.map Finding.feature = ["a", "b", "c"] ∧
      (discover answers answers [("c", strong), ("a", weak), ("b", overflowing)] strong
        (.number 1) false).findings.map Finding.feature = ["c", "a", "b"]) ∧
      ¬ Discovers answers answers [("a", weak), ("b", overflowing), ("c", strong)] strong
        (.number 1) false := by
  have hfirst : (discover answers answers [("a", weak), ("b", overflowing), ("c", strong)] strong
      (.number 1) false).findings.map Finding.feature = ["a", "b", "c"] := by decide +kernel
  have hsecond : (discover answers answers [("c", strong), ("a", weak), ("b", overflowing)] strong
      (.number 1) false).findings.map Finding.feature = ["c", "a", "b"] := by decide +kernel
  refine ⟨⟨hfirst, hsecond⟩, fun h => ?_⟩
  have hperm : ([("a", weak), ("b", overflowing), ("c", strong)] : List (String × List Nat)).Perm
      [("c", strong), ("a", weak), ("b", overflowing)] := by decide +kernel
  have hsame := h.rearranged _ hperm (by decide)
  rw [hsame, hsecond] at hfirst
  exact absurd hfirst (by decide)

end Analysis
end IndieWorker
