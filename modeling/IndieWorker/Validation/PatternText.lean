import IndieWorker.Validation.PatternGrammar

/-!
# Escapes and classes

The parser reads an escape or a class exactly when the grammar has it, and then what is
written.  Whether a rule beyond the documentation was used depends on the text alone.
-/

namespace IndieWorker
namespace Validation

open Search

/-! ## Escapes -/

theorem escapePart_eq_ok_iff {c : Char} {part : ClassPart} :
    escapePart c = .ok part ↔ ∃ b, escapeOf b c = some part := by
  simp only [Bool.exists_bool, escapeOf, Bool.false_eq_true, if_false, if_true]
  by_cases hn : c = 'n'
  · subst hn
    simp [escapePart, documentedEscape, controlEscape, isAsciiPunctuation]
  by_cases hr : c = 'r'
  · subst hr
    simp [escapePart, documentedEscape, controlEscape, isAsciiPunctuation]
  by_cases ht : c = 't'
  · subst ht
    simp [escapePart, documentedEscape, controlEscape, isAsciiPunctuation]
  unfold escapePart documentedEscape controlEscape
  rw [if_neg hn, if_neg hr, if_neg ht, if_neg hn, if_neg hr, if_neg ht]
  split_ifs <;> simp

theorem escapePart_of_escapeOf {b : Bool} {c : Char} {part : ClassPart}
    (h : escapeOf b c = some part) : escapePart c = .ok part :=
  escapePart_eq_ok_iff.mpr ⟨b, h⟩

/-- No escape is documented and beyond the documentation. -/
theorem documentedEscape_of_control {c : Char} {part : ClassPart}
    (h : controlEscape c = some part) : documentedEscape c = none := by
  unfold controlEscape at h
  by_cases hn : c = 'n'
  · rw [hn]
    decide
  by_cases hr : c = 'r'
  · rw [hr]
    decide
  by_cases ht : c = 't'
  · rw [ht]
    decide
  rw [if_neg hn, if_neg hr, if_neg ht] at h
  cases h

theorem escapeOf_unique {b b' : Bool} {c : Char} {part part' : ClassPart}
    (h : escapeOf b c = some part) (h' : escapeOf b' c = some part') : b = b' := by
  have hboth : ∀ {x y : ClassPart}, escapeOf true c = some x → escapeOf false c ≠ some y := by
    intro x y hcontrol hdocumented
    have hnone : escapeOf false c = none := documentedEscape_of_control hcontrol
    rw [hnone] at hdocumented
    cases hdocumented
  cases b with
  | true =>
    cases b' with
    | true => rfl
    | false => exact absurd h' (hboth h)
  | false =>
    cases b' with
    | true => exact absurd h (hboth h')
    | false => rfl

/-! ## Classes -/

theorem ClassText.ne_nil {beyond first : Bool} {parts : List ClassPart} {text : List Char}
    (h : ClassText beyond first parts text) : text ≠ [] := by
  cases h <;> nofun

/-- What follows a class does not make a range of its last characters. -/
theorem ClassText.unranged {beyond first : Bool} {parts : List ClassPart} {text : List Char}
    (h : ClassText beyond first parts text) (hu : Unranged text) (rest : List Char) :
    Unranged (text ++ rest) := by
  intro hi tail heq
  cases text with
  | nil => exact absurd rfl h.ne_nil
  | cons c text =>
    cases text with
    | nil =>
      obtain ⟨hc, _⟩ := List.cons.inj heq
      cases h with
      | close => exact absurd hc (by decide)
      | char _ _ _ hrest => exact absurd rfl hrest.ne_nil
    | cons d text =>
      obtain ⟨hc, htail⟩ := List.cons.inj heq
      obtain ⟨hd, _⟩ := List.cons.inj htail
      rw [← hd]
      exact hu d text (by rw [hc])

/-- The inside of a class is read up to its bracket. -/
theorem ClassText.classParts_eq {beyond first : Bool} {parts : List ClassPart} {text : List Char}
    (h : ClassText beyond first parts text) (negated : Bool) (acc : List ClassPart)
    (rest : List Char) :
    classParts negated acc first (text ++ rest) = .ok (.klass negated (acc ++ parts), rest) := by
  induction h generalizing acc with
  | close =>
    rw [List.append_nil]
    exact classParts_close
  | escape hc _ ih =>
    rw [List.cons_append, List.cons_append, classParts_escape (escapePart_of_escapeOf hc), ih,
      List.append_assoc]
    rfl
  | range hlo hfirst hhi hle _ ih =>
    rw [List.cons_append, List.cons_append, List.cons_append,
      classParts_range hlo hfirst hhi hle, ih, List.append_assoc]
    rfl
  | char hc hfirst hu htext ih =>
    rw [List.cons_append, classParts_single hc hfirst (htext.unranged hu rest), ih,
      List.append_assoc]
    rfl

theorem Unranged.of_append {text rest : List Char} (h : Unranged (text ++ rest)) : Unranged text :=
  fun hi tail heq => h hi (tail ++ rest) (by rw [heq]; rfl)

/-- The induction follows the loop of the parser, one rule of the grammar for each of
its ways on. -/
theorem classText_of_classParts (negated : Bool) (acc : List ClassPart) (first : Bool)
    (cs : List Char) {item : Item} {rest : List Char}
    (h : classParts negated acc first cs = .ok (item, rest)) :
    ∃ beyond parts text, ClassText beyond first parts text ∧ cs = text ++ rest ∧
      item = .klass negated (acc ++ parts) := by
  induction acc, first, cs using classParts.induct with
  | case1 acc first =>
    rw [classParts] at h
    cases h
  | case2 acc first c cs hclose =>
    obtain ⟨hc, hfirst⟩ := hclose
    subst hc hfirst
    rw [classParts_close] at h
    cases h
    exact ⟨false, [], [']'], .close, rfl, by rw [List.append_nil]⟩
  | case3 acc first hclose =>
    rw [classParts.eq_def] at h
    simp at h
  | case4 acc first c cs e he hclose =>
    rw [classParts.eq_def] at h
    simp [he] at h
  | case5 acc first c cs part hpart hclose ih =>
    rw [classParts_escape hpart] at h
    obtain ⟨b, hb⟩ := escapePart_eq_ok_iff.mp hpart
    obtain ⟨beyond, parts, text, htext, hcs, hitem⟩ := ih h
    refine ⟨b || beyond, part :: parts, '\\' :: c :: text, .escape hb htext, by rw [hcs]; rfl, ?_⟩
    rw [hitem, List.append_assoc]
    rfl
  | case6 acc first c hclose hescape hi tail hhi hlt =>
    rw [classParts.eq_def] at h
    simp [hclose, hescape, hhi, hlt] at h
  | case7 acc first c hclose hescape hi tail hhi hlt ih =>
    have hfirst : c = ']' → first = true := fun hc => by simpa [hc] using hclose
    have hhi' : hi ∉ [']', '\\'] := by simpa using hhi
    rw [classParts_range hescape hfirst hhi' (Char.not_lt.mp hlt)] at h
    obtain ⟨beyond, parts, text, htext, hcs, hitem⟩ := ih h
    refine ⟨_, .range c hi :: parts, c :: '-' :: hi :: text,
      .range hescape hfirst hhi' (Char.not_lt.mp hlt) htext, by rw [hcs]; rfl, ?_⟩
    rw [hitem, List.append_assoc]
    rfl
  | case8 acc first c hclose hescape hi tail hhi ih =>
    have hfirst : c = ']' → first = true := fun hc => by simpa [hc] using hclose
    have hu : Unranged ('-' :: hi :: tail) := by
      intro x xs heq
      cases heq
      by_cases hx : hi = ']'
      · exact Or.inl hx
      · exact Or.inr (by simpa [hx] using hhi)
    rw [classParts_single hescape hfirst hu] at h
    obtain ⟨beyond, parts, text, htext, hcs, hitem⟩ := ih h
    rw [hcs] at hu
    refine ⟨_, .char c :: parts, c :: text, .char hescape hfirst hu.of_append htext,
      by rw [hcs]; rfl, ?_⟩
    rw [hitem, List.append_assoc]
    rfl
  | case9 acc first c hclose hescape cs hdash ih =>
    have hfirst : c = ']' → first = true := fun hc => by simpa [hc] using hclose
    have hu : Unranged cs := fun x xs heq => (hdash x xs heq).elim
    rw [classParts_single hescape hfirst hu] at h
    obtain ⟨beyond, parts, text, htext, hcs, hitem⟩ := ih h
    rw [hcs] at hu
    refine ⟨_, .char c :: parts, c :: text, .char hescape hfirst hu.of_append htext,
      by rw [hcs]; rfl, ?_⟩
    rw [hitem, List.append_assoc]
    rfl

/-- The inside of a class is written with a rule beyond the documentation, or without
one. -/
theorem ClassText.beyond_unique {beyond beyond' first : Bool} {parts parts' : List ClassPart}
    {text : List Char} (h : ClassText beyond first parts text)
    (h' : ClassText beyond' first parts' text) : beyond = beyond' := by
  induction h generalizing beyond' parts' with
  | close =>
    cases h' with
    | close => rfl
    | char _ hfirst => cases hfirst rfl
  | escape hc _ ih =>
    cases h' with
    | escape hc' htext' => rw [escapeOf_unique hc hc', ih htext']
    | range hlo => exact absurd rfl hlo
    | char hne => exact absurd rfl hne
  | range hlo hfirst hhi _ _ ih =>
    cases h' with
    | escape => exact absurd rfl hlo
    | range _ _ _ _ htext' => rw [ih htext']
    | char _ _ hu => exact absurd (hu _ _ rfl) (by simpa using hhi)
  | char hne hfirst hu _ ih =>
    cases h' with
    | close => cases hfirst rfl
    | escape => exact absurd rfl hne
    | range _ _ hhi => exact absurd (hu _ _ rfl) (by simpa using hhi)
    | char _ _ _ htext' => rw [ih htext']

end Validation
end IndieWorker
