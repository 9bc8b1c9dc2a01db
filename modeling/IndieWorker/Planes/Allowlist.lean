import IndieWorker.Authz.Acceptance
import IndieWorker.Lib.FirstUse
import IndieWorker.Planes

/-!
# Whom the allow-list admits

The parser of `src/runtime/plane.rs` and the subjects of `src/runtime/authz.rs`
meet in one text.  No subject holds a comma or a blank, so the entries of a text
and the subjects in it are the same.
-/

namespace IndieWorker
namespace Planes

open Text Authz FirstUse

/-- The trimmed entries between the commas of a text. -/
def entries (raw : Option String) : List String :=
  (splitAll ',' (raw.getD "").toList).map fun entry => trimmed (.ofList entry)

theorem addEntry_eq_put {out : List String} {piece : List Char}
    (hempty : trimmed (.ofList piece) ≠ "") :
    addEntry out piece = put id (trimmed (.ofList piece)) out := by
  rw [put_id, addEntry]
  by_cases hmem : trimmed (.ofList piece) ∈ out
  · rw [if_pos hmem, if_pos (.inr (by simpa using hmem))]
  · rw [if_neg hmem, if_neg (not_or.mpr ⟨hempty, by simpa using hmem⟩)]

theorem parseAllowlist_eq (raw : Option String) :
    parseAllowlist raw = firsts ((entries raw).filter (· ≠ "")) := by
  have hfold : ∀ (pieces : List (List Char)) (out : List String),
      pieces.foldl addEntry out =
        ((pieces.map fun entry => trimmed (.ofList entry)).filter (· ≠ "")).foldl
          (fun out a => put id a out) out := by
    intro pieces
    induction pieces with
    | nil => exact fun out => rfl
    | cons piece pieces ih =>
      intro out
      rw [List.foldl_cons, List.map_cons, ih]
      by_cases hempty : trimmed (.ofList piece) = ""
      · rw [addEntry, if_pos (.inl hempty), List.filter_cons_of_neg (by simpa using hempty)]
      · rw [List.filter_cons_of_pos (by simpa using hempty), List.foldl_cons,
          addEntry_eq_put hempty]
  exact hfold _ []

theorem mem_parseAllowlist {raw : Option String} {e : String} :
    e ∈ parseAllowlist raw ↔ e ∈ entries raw ∧ e ≠ "" := by
  rw [parseAllowlist_eq, mem_firsts, List.mem_filter, decide_eq_true_iff]

/-- Empty entries aside, the list is in the order of the first occurrences. -/
theorem pairwise_parseAllowlist (raw : Option String) :
    (parseAllowlist raw).Pairwise fun x y =>
      ((entries raw).filter (· ≠ "")).idxOf x < ((entries raw).filter (· ≠ "")).idxOf y := by
  rw [parseAllowlist_eq]
  exact pairwise_firsts _

theorem comma_not_mem_entries {raw : Option String} {e : String} (h : e ∈ entries raw) :
    ',' ∉ e.toList := by
  obtain ⟨piece, hpiece, rfl⟩ := List.mem_map.mp h
  intro hcomma
  rw [trimmed, String.toList_ofList, String.toList_ofList] at hcomma
  exact not_mem_of_mem_splitAll hpiece (mem_of_mem_trim hcomma)

/-- The entries of texts joined by commas are these texts, trimmed. -/
theorem entries_intercalate {texts : List String} (hne : texts ≠ [])
    (h : ∀ t ∈ texts, ',' ∉ t.toList) :
    entries (some (",".intercalate texts)) = texts.map trimmed := by
  have hsplit : splitAll ',' (",".intercalate texts).toList = texts.map String.toList := by
    rw [String.toList_intercalate]
    refine splitAll_intercalate (List.map_eq_nil_iff.not.mpr hne) fun piece hpiece => ?_
    obtain ⟨t, ht, rfl⟩ := List.mem_map.mp hpiece
    exact h t ht
  unfold entries
  rw [Option.getD_some, hsplit, List.map_map]
  exact List.map_congr_left fun t _ => congrArg trimmed (String.ofList_toList)

theorem parseAllowlist_intercalate {out : List String} (h : Tidy out)
    (hcomma : ∀ e ∈ out, ',' ∉ e.toList) : parseAllowlist (some (",".intercalate out)) = out := by
  by_cases hne : out = []
  · rw [hne]
    rfl
  · have hsame : out.map trimmed = out :=
      (List.map_congr_left fun e he => (h.trimmed e he).2).trans (List.map_id out)
    have hfilter : out.filter (· ≠ "") = out :=
      List.filter_eq_self.mpr fun e he => decide_eq_true (h.trimmed e he).1
    rw [parseAllowlist_eq, entries_intercalate hne hcomma, hsame, hfilter, firsts_of_nodup h.nodup]

/-! ## Subjects -/

theorem ne_comma_of_isSubjectChar {c : Char} (h : isSubjectChar c = true) : c ≠ ',' := by
  intro hc
  subst hc
  exact absurd h (by decide)

theorem not_isWhitespace_of_isSubjectChar {c : Char} (h : isSubjectChar c = true) :
    isWhitespace c = false := by
  simp only [isSubjectChar, Bool.or_eq_true, beq_iff_eq] at h
  rcases h with ((((h | h) | h) | h) | h) | h
  · exact not_isWhitespace_of_isAlphanum h
  all_goals
    rw [h]
    decide

/-- What is left of a text once it is a subject. -/
theorem validSubject_eq_some {value subject : String} (h : validSubject value = some subject) :
    subject ≠ "" ∧ trimmed subject = subject ∧ ∀ c ∈ subject.toList, isSubjectChar c = true := by
  unfold validSubject at h
  dsimp only at h
  split at h
  · next hok =>
    rw [← Option.some.inj h]
    exact ⟨hok.1, trimmed_trimmed value, List.all_eq_true.mp hok.2.2⟩
  · cases h

/-- The subject of an actor is one that the validator has let pass. -/
theorem subject_of_project {b : Build} {i : Introspection} {r : Requirements} {now : Int64}
    {actor : VerifiedActor} (h : project b i r now = some (.ok actor)) : actor.subject ≠ "" := by
  obtain ⟨_, subject, hsubject, _, hactor⟩ :=
    projectSubject_eq_ok_iff.mp (projectSubject_of_project h)
  obtain ⟨raw, _, hvalid⟩ := Option.bind_eq_some_iff.mp hsubject
  rw [hactor]
  exact (validSubject_eq_some hvalid).1

/-- An audience that only an administrator's token can satisfy. -/
def IsAdmin (audience : Audience) : Prop := audience = .adminWeb ∨ audience = .adminApi

/-- The list admits an administrator whose subject is an entry of the text. -/
theorem isAllowlisted_iff {b : Build} {i : Introspection} {r : Requirements} {now : Int64}
    {actor : VerifiedActor} {raw : Option String} (h : project b i r now = some (.ok actor))
    (hadmin : IsAdmin r.audience) :
    isAllowlisted actor (parseAllowlist raw) = true ↔ actor.subject ∈ entries raw := by
  have hrealm : actor.realm = .admin := by
    rw [(project_ok h).2.2.2.1]
    rcases hadmin with haudience | haudience
    · rw [haudience]
      rfl
    · rw [haudience]
      rfl
  unfold isAllowlisted
  rw [hrealm, Bool.and_eq_true, List.any_eq_true]
  constructor
  · intro hlisted
    obtain ⟨e, he, hsame⟩ := hlisted.2
    rw [← beq_iff_eq.mp hsame]
    exact (mem_parseAllowlist.mp he).1
  · intro hentry
    exact ⟨rfl, _, mem_parseAllowlist.mpr ⟨hentry, subject_of_project h⟩, beq_self_eq_true _⟩

/-- A subject as somebody writes it into the list, with the blanks around it.  An
empty one is skipped. -/
structure Written where
  before : String
  subject : String
  after : String
  blank : isBlank before = true ∧ isBlank after = true
  valid : subject = "" ∨ validSubject subject = some subject

namespace Written

def text (w : Written) : String := w.before ++ w.subject ++ w.after

theorem isSubjectChar (w : Written) : ∀ c ∈ w.subject.toList, isSubjectChar c = true := by
  rcases w.valid with hempty | hvalid
  · rw [hempty]
    exact List.forall_mem_nil _
  · exact (validSubject_eq_some hvalid).2.2

theorem trimmed_text (w : Written) : trimmed w.text = w.subject := by
  have htrim : trim w.text.toList = w.subject.toList := by
    rw [text, String.toList_append, String.toList_append,
      trim_append _ (isBlank_iff.mp w.blank.1) (isBlank_iff.mp w.blank.2)]
    exact trim_eq_self fun c hc => not_isWhitespace_of_isSubjectChar (w.isSubjectChar c hc)
  rw [trimmed, htrim, String.ofList_toList]

theorem comma_not_mem_text (w : Written) : ',' ∉ w.text.toList := by
  have hblank : ∀ s : String, isBlank s = true → ',' ∉ s.toList := by
    intro s hs hcomma
    exact absurd (isBlank_iff.mp hs ',' hcomma) (by decide)
  rw [text, String.toList_append, String.toList_append, List.mem_append, List.mem_append]
  intro h
  rcases h with (h | h) | h
  · exact hblank _ w.blank.1 h
  · exact ne_comma_of_isSubjectChar (w.isSubjectChar _ h) rfl
  · exact hblank _ w.blank.2 h

end Written

/-- The allow-list of a text holds its trimmed entries once each, in order, reads
back from what it is joined into, and admits exactly the administrators whose
subject is an entry.  So whatever list of subjects is written, with blanks and
empty entries, admits these subjects and no others. -/
theorem allowlist_exact :
    (∀ raw, (parseAllowlist raw).Nodup ∧ (∀ e ∈ parseAllowlist raw, e ≠ "" ∧ trimmed e = e) ∧
      (∀ e, e ∈ parseAllowlist raw ↔ e ∈ entries raw ∧ e ≠ "") ∧
      ((parseAllowlist raw).Pairwise fun x y =>
        ((entries raw).filter (· ≠ "")).idxOf x < ((entries raw).filter (· ≠ "")).idxOf y) ∧
      parseAllowlist (some (",".intercalate (parseAllowlist raw))) = parseAllowlist raw) ∧
    ∀ b i r now actor, project b i r now = some (.ok actor) → IsAdmin r.audience →
      (∀ raw, isAllowlisted actor (parseAllowlist raw) = true ↔ actor.subject ∈ entries raw) ∧
      ∀ list : List Written,
        isAllowlisted actor (parseAllowlist (some (",".intercalate (list.map Written.text)))) =
          true ↔ actor.subject ∈ list.map Written.subject := by
  refine ⟨fun raw => ?_, fun b i r now actor h hadmin => ⟨fun raw => isAllowlisted_iff h hadmin,
    fun list => ?_⟩⟩
  · have htidy := tidy_parseAllowlist raw
    refine ⟨htidy.nodup, htidy.trimmed, fun e => mem_parseAllowlist, pairwise_parseAllowlist raw,
      parseAllowlist_intercalate htidy fun e he => ?_⟩
    exact comma_not_mem_entries (mem_parseAllowlist.mp he).1
  · rw [isAllowlisted_iff h hadmin]
    by_cases hne : list = []
    · rw [hne]
      -- the text is empty, and an actor has a subject
      have hempty : entries (some (",".intercalate (([] : List Written).map Written.text))) =
          [""] := rfl
      rw [hempty, List.mem_singleton]
      exact iff_of_false (subject_of_project h) List.not_mem_nil
    · have htexts : ∀ t ∈ list.map Written.text, ',' ∉ t.toList := by
        intro t ht
        obtain ⟨w, _, rfl⟩ := List.mem_map.mp ht
        exact w.comma_not_mem_text
      rw [entries_intercalate (List.map_eq_nil_iff.not.mpr hne) htexts, List.map_map]
      have hsubjects : list.map (trimmed ∘ Written.text) = list.map Written.subject :=
        List.map_congr_left fun w _ => w.trimmed_text
      rw [hsubjects]

theorem allowlist_exact_operator :
    isAllowlisted (actorOf operatorToken .adminApi "ops-1")
      (parseAllowlist (some "ops-0, ops-1 ,")) = true := by
  have hproject : project .checked operatorToken
      (.new "https://auth-admin.indiebuild.dev" .adminApi) 150 =
        some (.ok (actorOf operatorToken .adminApi "ops-1")) := by decide +kernel
  let list : List Written :=
    [⟨"", "ops-0", "", by decide, .inr (by decide)⟩,
      ⟨" ", "ops-1", " ", by decide, .inr (by decide)⟩,
      ⟨"", "", "", by decide, .inl rfl⟩]
  have htext : ",".intercalate (list.map Written.text) = "ops-0, ops-1 ," := by decide
  have hadmits := (allowlist_exact.2 _ _ _ _ _ hproject (.inr rfl)).2 list
  rw [htext] at hadmits
  exact hadmits.mpr (by decide)

end Planes
end IndieWorker
