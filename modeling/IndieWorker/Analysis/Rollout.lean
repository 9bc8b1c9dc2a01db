import IndieWorker.Analysis.Embedding
import IndieWorker.Lib.Run

/-!
# Rollout of a comparison space

`SpaceRegistration` of `src/analysis/embedding.rs`: a space is registered disabled, and
`enable` wants the evidence its index calls for.
-/

namespace IndieWorker
namespace Analysis

open Run

inductive AnnStrategy where
  | halfvecExact
  | halfvecMrl
  | binaryFullRerank
  deriving DecidableEq, Repr

/-- Whether this strategy can return a wrong neighbour. -/
def AnnStrategy.isApproximate (strategy : AnnStrategy) : Bool := strategy ≠ .halfvecExact

/-- The review gates. -/
structure Evidence where
  migrationReplay : Bool := false
  tenantIsolation : Bool := false
  lexicalOnlyRetrieval : Bool := false
  exactVsAnnRecall : Bool := false
  rollback : Bool := false
  backupRestore : Bool := false
  deriving DecidableEq, Repr

namespace Evidence

variable (evidence : Evidence) (strategy : AnnStrategy)

def completeFor : Bool :=
  let base := evidence.migrationReplay && evidence.tenantIsolation &&
    evidence.lexicalOnlyRetrieval && evidence.rollback && evidence.backupRestore
  if strategy.isApproximate then base && evidence.exactVsAnnRecall else base

def missingFor : List String :=
  let missing := if !evidence.migrationReplay then ["migration replay"] else []
  let missing :=
    if !evidence.tenantIsolation then missing ++ ["tenant isolation (RLS)"] else missing
  let missing :=
    if !evidence.lexicalOnlyRetrieval then missing ++ ["lexical-only retrieval fallback"]
    else missing
  let missing :=
    if strategy.isApproximate && !evidence.exactVsAnnRecall then missing ++ ["exact-vs-ANN recall"]
    else missing
  let missing := if !evidence.rollback then missing ++ ["rollback"] else missing
  if !evidence.backupRestore then missing ++ ["backup/restore"] else missing

end Evidence

/-- A registered space and its rollout state. -/
structure SpaceRegistration where
  space : ComparisonSpace
  annStrategy : AnnStrategy
  enabled : Bool
  evidence : Evidence
  deriving DecidableEq

/-- The refusals of `enable`. -/
inductive EnableError where
  | approximateWithoutEvidence (strategy : AnnStrategy)
  | spaceDisabled (space : String)
  deriving DecidableEq

namespace SpaceRegistration

/-- A newly registered space. -/
def new (space : ComparisonSpace) : SpaceRegistration := ⟨space, .halfvecExact, false, {}⟩

/-- Turn the space on. -/
def enable (r : SpaceRegistration) : SpaceRegistration × Except EnableError Unit :=
  if r.annStrategy.isApproximate && !r.evidence.exactVsAnnRecall then
    (r, .error (.approximateWithoutEvidence r.annStrategy))
  else if !r.evidence.completeFor r.annStrategy then
    (r, .error (.spaceDisabled (r.space.key ++ " (missing: " ++
      ", ".intercalate (r.evidence.missingFor r.annStrategy) ++ ")")))
  else ({ r with enabled := true }, .ok ())

end SpaceRegistration

/-! ## The gates -/

inductive Gate where
  | migrationReplay
  | tenantIsolation
  | lexicalOnlyRetrieval
  | exactVsAnnRecall
  | rollback
  | backupRestore
  deriving DecidableEq, Repr

def Gate.label : Gate → String
  | migrationReplay => "migration replay"
  | tenantIsolation => "tenant isolation (RLS)"
  | lexicalOnlyRetrieval => "lexical-only retrieval fallback"
  | exactVsAnnRecall => "exact-vs-ANN recall"
  | rollback => "rollback"
  | backupRestore => "backup/restore"

def Evidence.holds (evidence : Evidence) : Gate → Bool
  | .migrationReplay => evidence.migrationReplay
  | .tenantIsolation => evidence.tenantIsolation
  | .lexicalOnlyRetrieval => evidence.lexicalOnlyRetrieval
  | .exactVsAnnRecall => evidence.exactVsAnnRecall
  | .rollback => evidence.rollback
  | .backupRestore => evidence.backupRestore

/-- What an index calls for.  Only an approximate one can be wrong. -/
def AnnStrategy.required (strategy : AnnStrategy) : List Gate :=
  [.migrationReplay, .tenantIsolation, .lexicalOnlyRetrieval] ++
    (if strategy.isApproximate then [.exactVsAnnRecall] else []) ++ [.rollback, .backupRestore]

/-- The gates an index calls for that are not held. -/
def Evidence.lacking (evidence : Evidence) (strategy : AnnStrategy) : List Gate :=
  strategy.required.filter fun gate => !evidence.holds gate

section Gates

variable (evidence : Evidence) (strategy : AnnStrategy)

theorem missingFor_eq :
    evidence.missingFor strategy = (evidence.lacking strategy).map Gate.label := by
  obtain ⟨replay, isolation, lexical, measured, rollback, backup⟩ := evidence
  cases strategy <;> revert replay isolation lexical measured rollback backup <;> decide

theorem completeFor_iff :
    evidence.completeFor strategy = true ↔ evidence.lacking strategy = [] := by
  obtain ⟨replay, isolation, lexical, measured, rollback, backup⟩ := evidence
  cases strategy <;> revert replay isolation lexical measured rollback backup <;> decide

theorem recall_lacking_iff : (strategy.isApproximate && !evidence.exactVsAnnRecall) = true ↔
    .exactVsAnnRecall ∈ evidence.lacking strategy := by
  obtain ⟨replay, isolation, lexical, measured, rollback, backup⟩ := evidence
  cases strategy <;> revert replay isolation lexical measured rollback backup <;> decide

end Gates

/-! ## A rollout -/

/-- What happens to a registration: a review, the choice of an index, or an attempt to
turn the space on. -/
inductive Action where
  | review (evidence : Evidence)
  | choose (strategy : AnnStrategy)
  | enable
  deriving DecidableEq

namespace SpaceRegistration

def step (r : SpaceRegistration) : Action →
    Option (SpaceRegistration × Option (Except EnableError Unit))
  | .review evidence => some ({ r with evidence := evidence }, none)
  | .choose strategy => some ({ r with annStrategy := strategy }, none)
  | .enable => some (r.enable.1, some r.enable.2)

/-- What an attempt answers, by what is lacking. -/
theorem enable_eq (r : SpaceRegistration) : r.enable =
    if .exactVsAnnRecall ∈ r.evidence.lacking r.annStrategy then
      (r, .error (.approximateWithoutEvidence r.annStrategy))
    else if r.evidence.lacking r.annStrategy ≠ [] then
      (r, .error (.spaceDisabled (r.space.key ++ " (missing: " ++
        ", ".intercalate ((r.evidence.lacking r.annStrategy).map Gate.label) ++ ")")))
    else ({ r with enabled := true }, .ok ()) := by
  rw [enable, missingFor_eq]
  refine if_congr (recall_lacking_iff _ _) rfl (if_congr ?_ rfl rfl)
  rw [Bool.not_eq_true', ← Bool.not_eq_true, completeFor_iff]

/-- The attempts that succeeded were made with nothing lacking, and the space is on when
there was one. -/
structure RolledOut (space : ComparisonSpace)
    (h : List (Entry SpaceRegistration Action (Option (Except EnableError Unit))))
    (r : SpaceRegistration) : Prop where
  same : r.space = space
  before : ∀ x ∈ h, x.before.space = space
  enabled : r.enabled = true ↔ ∃ x ∈ h, x.event = .enable ∧
    x.before.evidence.lacking x.before.annStrategy = []

theorem exists_mem_concat {α : Type} {l : List α} {x : α} {P : α → Prop} :
    (∃ y ∈ l ++ [x], P y) ↔ (∃ y ∈ l, P y) ∨ P x := by
  simp only [List.mem_append, List.mem_singleton, or_and_right, exists_or, exists_eq_left]

theorem RolledOut.concat {space : ComparisonSpace}
    {h : List (Entry SpaceRegistration Action (Option (Except EnableError Unit)))}
    {r t : SpaceRegistration} {e : Action} {o : Option (Except EnableError Unit)}
    (hr : RolledOut space h r) (hstep : r.step e = some (t, o)) :
    RolledOut space (h ++ [⟨r, e, o, t⟩]) t := by
  have hbefore : ∀ x ∈ h ++ [⟨r, e, o, t⟩], x.before.space = space := by
    intro x hx
    rcases List.mem_append.mp hx with hx | hx
    · exact hr.before x hx
    · rw [List.mem_singleton.mp hx]
      exact hr.same
  cases e with
  | review evidence =>
    obtain ⟨rfl, -⟩ := Prod.ext_iff.mp (Option.some.inj hstep)
    exact ⟨hr.same, hbefore, by rw [exists_mem_concat, ← hr.enabled]; simp⟩
  | choose strategy =>
    obtain ⟨rfl, -⟩ := Prod.ext_iff.mp (Option.some.inj hstep)
    exact ⟨hr.same, hbefore, by rw [exists_mem_concat, ← hr.enabled]; simp⟩
  | enable =>
    obtain ⟨rfl, -⟩ := Prod.ext_iff.mp (Option.some.inj hstep)
    by_cases hlacking : r.evidence.lacking r.annStrategy = []
    · have henable : r.enable.1 = { r with enabled := true } := by
        rw [enable_eq, hlacking]
        rfl
      dsimp only at hbefore ⊢
      rw [henable] at hbefore ⊢
      refine ⟨hr.same, hbefore, iff_of_true rfl ?_⟩
      rw [exists_mem_concat]
      exact .inr ⟨rfl, hlacking⟩
    · have henable : r.enable.1 = r := by
        rw [enable_eq, if_pos hlacking]
        split <;> rfl
      dsimp only at hbefore ⊢
      rw [henable] at hbefore ⊢
      refine ⟨hr.same, hbefore, ?_⟩
      rw [exists_mem_concat, ← hr.enabled]
      simp [hlacking]

theorem rolledOut (space : ComparisonSpace) (actions : List Action) :
    RolledOut space (trace step (.new space) actions) (final step (.new space) actions) :=
  history_invariant_start (RolledOut space) ⟨rfl, by simp, by simp [new]⟩
    (fun _ _ _ _ _ hr hstep => hr.concat hstep) actions

/-- Over any rollout a space is on exactly when an attempt was made with every gate held
that the index then called for; every other attempt changes nothing and names, in order,
the gates that were not held; and until then nothing in the space is compared. -/
theorem rollout_exact (α : Type) [Field α] [DecidableEq α] (space : ComparisonSpace)
    (actions : List Action) :
    ((final step (.new space) actions).enabled = true ↔
        ∃ x ∈ trace step (.new space) actions, x.event = .enable ∧
          ∀ gate ∈ x.before.annStrategy.required, x.before.evidence.holds gate = true) ∧
      (∀ x ∈ trace step (.new space) actions, x.event = .enable →
        ∃ lacking, lacking = x.before.annStrategy.required.filter (fun gate =>
            !x.before.evidence.holds gate) ∧
          (lacking = [] → x.output = some (.ok ()) ∧ x.after = { x.before with enabled := true }) ∧
          (lacking ≠ [] → x.after = x.before ∧
            (.exactVsAnnRecall ∈ lacking →
              x.output = some (.error (.approximateWithoutEvidence x.before.annStrategy))) ∧
            (.exactVsAnnRecall ∉ lacking →
              x.output = some (.error (.spaceDisabled (space.key ++ " (missing: " ++
                ", ".intercalate (lacking.map Gate.label) ++ ")")))))) ∧
      ∀ (sqrt : α → α) (left right : List α × ComparisonSpace),
        left.2 = space → left.2.comparableWith right.2 = true →
          ((final step (.new space) actions).enabled = false →
            similarity sqrt left right (final step (.new space) actions).enabled =
              .error (.spaceDisabled space.key)) ∧
          ((final step (.new space) actions).enabled = true →
            ∃ d, similarity sqrt left right (final step (.new space) actions).enabled = .ok d) := by
  refine ⟨?_, fun x hx hevent => ?_, fun sqrt left right hleft hcomparable => ⟨?_, ?_⟩⟩
  · rw [(rolledOut space actions).enabled]
    simp only [Evidence.lacking, List.filter_eq_nil_iff, Bool.not_eq_true', Bool.not_eq_false]
  · have hstep := step_of_mem_trace hx
    rw [hevent] at hstep
    obtain ⟨hafter, houtput⟩ := Prod.ext_iff.mp (Option.some.inj hstep)
    dsimp only at hafter houtput
    have henable := enable_eq x.before
    refine ⟨x.before.evidence.lacking x.before.annStrategy, rfl, fun hlacking => ?_,
      fun hlacking => ?_⟩
    · rw [hlacking] at henable
      exact ⟨houtput.symm.trans (by rw [henable]; rfl), hafter.symm.trans (by rw [henable]; rfl)⟩
    · rw [← (rolledOut space actions).before x hx]
      refine ⟨?_, fun hrecall => ?_, fun hrecall => ?_⟩
      · rw [← hafter, henable, if_pos hlacking]
        split <;> rfl
      · rw [← houtput, henable, if_pos hrecall]
      · rw [← houtput, henable, if_neg hrecall, if_pos hlacking]
  · intro henabled
    rw [henabled, similarity, hcomparable, hleft]
    rfl
  · intro henabled
    rw [henabled]
    exact ⟨_, similarity_enabled hcomparable⟩

/-- An approximate index without measured recall, then an exact one. -/
theorem rollout_exact_exact_index :
    let evidence : Evidence := ⟨true, true, true, false, true, true⟩
    let actions : List Action := [.choose .halfvecMrl, .review evidence, .enable]
    similarity (id : ℚ → ℚ) ([3, 4], planar .query) ([1, 2], planar .document)
        (final step (.new (planar .query)) actions).enabled =
      .error (.spaceDisabled (planar .query).key) ∧
    ∃ d, similarity (id : ℚ → ℚ) ([3, 4], planar .query) ([1, 2], planar .document)
      (final step (.new (planar .query)) (actions ++ [.choose .halfvecExact, .enable])).enabled =
        .ok d := by
  intro evidence actions
  exact ⟨((rollout_exact ℚ (planar .query) actions).2.2 id ([3, 4], planar .query)
      ([1, 2], planar .document) rfl (by decide)).1 rfl,
    ((rollout_exact ℚ (planar .query) (actions ++ [.choose .halfvecExact, .enable])).2.2 id
      ([3, 4], planar .query) ([1, 2], planar .document) rfl (by decide)).2 rfl⟩

end SpaceRegistration

end Analysis
end IndieWorker
