import IndieWorker.Onboarding.Siblings

/-!
# Redelivery and reach

Two questions a caller of the onboarding machines may ask.  An event that is
delivered more than once in a row is a replay: the subject stays where the first
delivery took it, so a run does not depend on how often its events arrive.  And
`next_states` is the whole of what one event can do, so what a subject can ever
become is what its steps lead to.
-/

namespace IndieWorker
namespace Onboarding

open Run

section Table

variable {σ : Type} [DecidableEq σ] {edges : List (σ × Event × σ)} {events : List Event}

/-- An event that has led into a state does not lead out of it. -/
def Rests (edges : List (σ × Event × σ)) : Prop :=
  ∀ x ∈ edges, ∀ y ∈ edges, x.2.2 = y.1 → x.2.1 ≠ y.2.1

instance (edges : List (σ × Event × σ)) : Decidable (Rests edges) :=
  inferInstanceAs (Decidable (∀ x ∈ edges, ∀ y ∈ edges, x.2.2 = y.1 → x.2.1 ≠ y.2.1))

/-- An event with an edge into the current state and none out of it is a
replay. -/
theorem advance_replay {s t : σ} {e : Event} (hrests : Rests edges)
    (h : advance s e edges events = .advanced t) : advance t e edges events = .alreadyThere t := by
  have hedge := mem_edges_of_advance h
  have hevent : e ∈ events := by
    by_contra hnot
    rw [advance_eq_answer, answer, if_pos (by simpa using hnot)] at h
    cases h
  have hout : edges.find? (leaves t e) = none := by
    rw [List.find?_eq_none]
    intro y hy hleaves
    simp only [leaves, Bool.and_eq_true, beq_iff_eq] at hleaves
    exact hrests _ hedge y hy hleaves.1.symm hleaves.2.symm
  have hin : edges.any (enters t e) = true := by
    rw [List.any_eq_true]
    exact ⟨_, hedge, by simp [enters]⟩
  rw [advance_eq_answer, answer, if_neg (by simpa using hevent), hout]
  exact if_pos hin

/-- A repeated event leaves the subject where the first delivery took it. -/
theorem settles_of_rests (hrests : Rests edges) :
    Settles (follow fun s e => advance s e edges events) := by
  intro s e t o h
  unfold follow at h ⊢
  dsimp only at h ⊢
  rcases ho : advance s e edges events with u | u | r
  · rw [ho] at h
    cases h
    rw [advance_replay hrests ho]
    exact ⟨_, rfl⟩
  · rw [ho] at h
    cases h
    rw [ho]
    exact ⟨_, rfl⟩
  · rw [ho] at h
    cases h
    rw [ho]
    exact ⟨_, rfl⟩

/-! ## Reach -/

/-- `next_states`: the targets of the edges out of a state, without the
repetitions that stand next to each other. -/
def nextStates (edges : List (σ × Event × σ)) (s : σ) : List σ :=
  ((edges.filter fun (start, _, _) => start == s).map fun (_, _, target) => target).destutter
    (· ≠ ·)

/-- The state and the event decide the edge, and every event of the table is one
the machine understands. -/
def Decided (edges : List (σ × Event × σ)) (events : List Event) : Prop :=
  (∀ x ∈ edges, x.2.1 ∈ events) ∧ ∀ x ∈ edges, ∀ y ∈ edges, x.1 = y.1 → x.2.1 = y.2.1 → x = y

instance (edges : List (σ × Event × σ)) (events : List Event) : Decidable (Decided edges events) :=
  inferInstanceAs (Decidable (_ ∧ _))

theorem mem_destutter'_ne {α : Type} [DecidableEq α] {x a : α} (l : List α) :
    x ∈ l.destutter' (· ≠ ·) a ↔ x ∈ a :: l := by
  induction l generalizing a with
  | nil => rfl
  | cons b l ih =>
    by_cases hab : a = b
    · subst hab
      rw [List.destutter'_cons_neg _ (by simp), ih]
      simp
    · rw [List.destutter'_cons_pos _ hab, List.mem_cons, ih, ← List.mem_cons]

theorem mem_destutter_ne {α : Type} [DecidableEq α] {x : α} (l : List α) :
    x ∈ l.destutter (· ≠ ·) ↔ x ∈ l := by
  cases l with
  | nil => rfl
  | cons a l => exact mem_destutter'_ne l

theorem mem_nextStates {s t : σ} : t ∈ nextStates edges s ↔ ∃ e, (s, e, t) ∈ edges := by
  unfold nextStates
  rw [mem_destutter_ne, List.mem_map]
  constructor
  · rintro ⟨⟨start, e, target⟩, hx, rfl⟩
    obtain ⟨hmem, hstart⟩ := List.mem_filter.mp hx
    rw [beq_iff_eq] at hstart
    exact ⟨e, hstart ▸ hmem⟩
  · rintro ⟨e, hmem⟩
    exact ⟨(s, e, t), List.mem_filter.mpr ⟨hmem, by simp⟩, rfl⟩

/-- One accepted event leads to the states of the list and to no other. -/
theorem mem_nextStates_iff_advance (hdecided : Decided edges events) {s t : σ} :
    t ∈ nextStates edges s ↔ ∃ e, advance s e edges events = .advanced t := by
  rw [mem_nextStates]
  constructor
  · rintro ⟨e, hmem⟩
    obtain ⟨u, hu⟩ := advance_moved_of_mem (hdecided.1 _ hmem) hmem
    have hsame := hdecided.2 _ hmem _ (mem_edges_of_advance hu) rfl rfl
    cases hsame
    exact ⟨e, hu⟩
  · rintro ⟨e, he⟩
    exact ⟨e, mem_edges_of_advance he⟩

/-- A run ends where a path through `next_states` leads, and every such path is
gone by some run. -/
theorem final_iff_path (hdecided : Decided edges events) {s t : σ} :
    (∃ es, final (follow fun s e => advance s e edges events) s es = t) ↔
      Relation.ReflTransGen (fun u v => v ∈ nextStates edges u) s t := by
  constructor
  · rintro ⟨es, rfl⟩
    induction es generalizing s with
    | nil => exact .refl
    | cons e es ih =>
      rcases ho : advance s e edges events with u | u | r
      · rw [final_cons (t := u) (o := .advanced u) (by simp only [follow, ho])]
        exact .head ((mem_nextStates_iff_advance hdecided).mpr ⟨e, ho⟩) ih
      · rw [final_cons (t := s) (o := .alreadyThere u) (by simp only [follow, ho])]
        exact ih
      · rw [final_cons (t := s) (o := .rejected r) (by simp only [follow, ho])]
        exact ih
  · intro hpath
    induction hpath using Relation.ReflTransGen.head_induction_on with
    | refl => exact ⟨[], rfl⟩
    | @head u v hstep _ ih =>
      obtain ⟨e, he⟩ := (mem_nextStates_iff_advance hdecided).mp hstep
      obtain ⟨es, hes⟩ := ih
      refine ⟨e :: es, ?_⟩
      rw [final_cons (t := v) (o := .advanced v) (by simp only [follow, he]), hes]

end Table

def OrgState.nextStates (s : OrgState) : List OrgState := Onboarding.nextStates transitions s

def UserState.nextStates (s : UserState) : List UserState := Onboarding.nextStates transitions s

/-- The targets of the edges out of a state as a set in the order of insertion,
which is how the siblings collect them. -/
def targetSet {σ ε : Type} [DecidableEq σ] (edges : List (σ × ε × σ)) (s : σ) : List σ :=
  ((edges.filter fun (start, _, _) => start == s).map fun (_, _, target) => target).eraseDups

namespace Js

def orgNextStates (state : String) : List String := targetSet ORG_TRANSITIONS state

def userNextStates (state : String) : List String := targetSet USER_TRANSITIONS state

end Js

namespace Dart

def orgNextStates (state : OrgState) : List OrgState := targetSet orgTransitions state

def userNextStates (state : UserState) : List UserState := targetSet userTransitions state

end Dart

def Gleam.orgNextStates (state : OrgState) : List OrgState := targetSet orgTransitions state

theorem orgNextStates_agree (s : OrgState) :
    Js.orgNextStates s.wire = s.nextStates.map OrgState.wire ∧
      Dart.orgNextStates (.of s) = s.nextStates.map .of ∧
      Gleam.orgNextStates (.of s) = s.nextStates.map .of := by
  cases s <;> decide

theorem userNextStates_agree (s : UserState) :
    Js.userNextStates s.wire = s.nextStates.map UserState.wire ∧
      Dart.userNextStates (.of s) = s.nextStates.map .of := by
  cases s <;> decide

/-! ## The two machines -/

/-- Delivering an event again at once is answered as a replay, and no run depends
on how often each of its events is delivered in a row. -/
theorem redelivery_harmless :
    (∀ (s : OrgState) (es fs : List Event), es.destutter (· ≠ ·) = fs.destutter (· ≠ ·) →
        final (follow OrgState.advance) s es = final (follow OrgState.advance) s fs) ∧
      (∀ (s t : OrgState) (e : Event), s.advance e = .advanced t → t.advance e = .alreadyThere t) ∧
      (∀ (s : UserState) (es fs : List Event), es.destutter (· ≠ ·) = fs.destutter (· ≠ ·) →
        final (follow UserState.advance) s es = final (follow UserState.advance) s fs) ∧
      ∀ (s t : UserState) (e : Event), s.advance e = .advanced t →
        t.advance e = .alreadyThere t := by
  have horg : Rests OrgState.transitions := by decide
  have huser : Rests UserState.transitions := by decide
  refine ⟨fun s es fs h => ?_, fun s t e h => advance_replay horg h, fun s es fs h => ?_,
    fun s t e h => advance_replay huser h⟩
  · exact final_eq_of_destutter_eq (settles_of_rests horg) s h
  · exact final_eq_of_destutter_eq (settles_of_rests huser) s h

theorem redelivery_harmless_suspended :
    final (follow OrgState.advance) .created [.suspended, .suspended, .activated, .activated] =
      final (follow OrgState.advance) .created [.suspended, .activated] :=
  redelivery_harmless.1 .created _ _ (by decide)

/-- `next_states` names, once each, the states one event can lead to, in every
language the same; and a run can lead from one state to another exactly where a
path through `next_states` does. -/
theorem next_states_exact :
    (∀ s : OrgState, s.nextStates.Nodup ∧
        (∀ t, t ∈ s.nextStates ↔ ∃ e, s.advance e = .advanced t) ∧
        (∀ t, (∃ es, final (follow OrgState.advance) s es = t) ↔
          Relation.ReflTransGen (fun u v : OrgState => v ∈ u.nextStates) s t) ∧
        Js.orgNextStates s.wire = s.nextStates.map OrgState.wire ∧
        Dart.orgNextStates (.of s) = s.nextStates.map .of ∧
        Gleam.orgNextStates (.of s) = s.nextStates.map .of) ∧
      ∀ s : UserState, s.nextStates.Nodup ∧
        (∀ t, t ∈ s.nextStates ↔ ∃ e, s.advance e = .advanced t) ∧
        (∀ t, (∃ es, final (follow UserState.advance) s es = t) ↔
          Relation.ReflTransGen (fun u v : UserState => v ∈ u.nextStates) s t) ∧
        Js.userNextStates s.wire = s.nextStates.map UserState.wire ∧
        Dart.userNextStates (.of s) = s.nextStates.map .of := by
  have horg : Decided OrgState.transitions OrgState.EVENTS := by decide
  have huser : Decided UserState.transitions UserState.EVENTS := by decide
  constructor
  · intro s
    refine ⟨by cases s <;> decide, fun t => mem_nextStates_iff_advance horg,
      fun t => final_iff_path horg, orgNextStates_agree s⟩
  · intro s
    refine ⟨by cases s <;> decide, fun t => mem_nextStates_iff_advance huser,
      fun t => final_iff_path huser, userNextStates_agree s⟩

end Onboarding
end IndieWorker
