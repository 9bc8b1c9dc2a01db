import IndieWorker.Validation.PatternText

/-!
# What the parser takes

`Pattern.parse` compiles exactly the sources of the grammar, each to what it says, and
no source is both in the documented grammar and beyond it.
-/

namespace IndieWorker
namespace Validation

open Search

/-! ## Items -/

theorem mem_metacharacters_of_quantifier {c : Char} (h : c ∈ QUANTIFIERS) : c ∈ METACHARACTERS :=
  List.mem_of_mem_drop (i := 10) h

theorem parseItem_quantifier {c : Char} (hc : c ∈ QUANTIFIERS) (cs : List Char) :
    parseItem c cs = .ok (.literal c, cs) := by
  simp only [QUANTIFIERS, List.mem_cons, List.not_mem_nil, or_false] at hc
  rcases hc with hc | hc | hc
  · rw [hc]
    rfl
  · rw [hc]
    rfl
  · rw [hc]
    rfl

/-- An item is read back, and does not start with an anchor. -/
theorem ItemText.head {beyond : Bool} {item : Item} {text : List Char}
    (h : ItemText beyond item text) :
    ∃ c cs, text = c :: cs ∧ c ∉ ['^', '$'] ∧
      ∀ rest, parseItem c (cs ++ rest) = .ok (item, rest) := by
  cases h with
  | any => exact ⟨_, _, rfl, by decide, fun rest => rfl⟩
  | @literal c hc =>
    refine ⟨c, [], rfl, fun h => hc ?_, fun rest => parseItem_literal hc rest⟩
    exact List.mem_of_mem_take (i := 2) h
  | @quantifier c hc =>
    refine ⟨c, [], rfl, fun h => ?_, fun rest => parseItem_quantifier hc rest⟩
    simp only [QUANTIFIERS, List.mem_cons, List.not_mem_nil, or_false] at h hc
    rcases h with h | h
    · rw [h] at hc
      exact absurd hc (by decide)
    · rw [h] at hc
      exact absurd hc (by decide)
  | @escapeChar b c x hx =>
    refine ⟨'\\', [c], rfl, by decide, fun rest => ?_⟩
    simp [parseItem, escapePart_of_escapeOf hx]
  | @escapeClass b c part hpart hclass =>
    refine ⟨'\\', [c], rfl, by decide, fun rest => ?_⟩
    cases part with
    | char x => exact absurd rfl (hclass x)
    | _ => simp [parseItem, escapePart_of_escapeOf hpart]
  | @klass beyond negated parts text htext hcaret =>
    refine ⟨'[', _, rfl, by decide, fun rest => ?_⟩
    have hread := htext.classParts_eq negated [] rest
    show parseClass (edge '^' negated ++ text ++ rest) = _
    cases negated with
    | true =>
      rw [edge_true, List.append_assoc, List.singleton_append, parseClass_negated, hread]
      rfl
    | false =>
      have hhead : (text ++ rest).head? ≠ some '^' := by
        rw [List.head?_append_of_ne_nil _ htext.ne_nil]
        exact hcaret rfl
      rw [edge_false, List.nil_append, parseClass_plain hhead, hread]
      rfl

theorem itemText_of_parseClass {cs : List Char} {item : Item} {rest : List Char}
    (h : parseClass cs = .ok (item, rest)) :
    ∃ beyond text, ItemText beyond item text ∧ '[' :: cs = text ++ rest := by
  by_cases hcaret : cs.head? = some '^'
  · obtain ⟨tail, htail⟩ := List.head?_eq_some_iff.mp hcaret
    rw [htail, parseClass_negated] at h
    obtain ⟨beyond, parts, text, htext, hcs, hitem⟩ := classText_of_classParts _ _ _ _ h
    refine ⟨beyond, '[' :: (edge '^' true ++ text), ?_, by rw [htail, hcs]; rfl⟩
    rw [hitem]
    exact .klass htext nofun
  · rw [parseClass_plain hcaret] at h
    obtain ⟨beyond, parts, text, htext, hcs, hitem⟩ := classText_of_classParts _ _ _ _ h
    refine ⟨beyond, '[' :: (edge '^' false ++ text), ?_, by rw [hcs]; rfl⟩
    rw [hitem]
    refine .klass htext fun _ => ?_
    rwa [hcs, List.head?_append_of_ne_nil _ htext.ne_nil] at hcaret

theorem itemText_of_parseItem {c : Char} {cs : List Char} {item : Item} {rest : List Char}
    (h : parseItem c cs = .ok (item, rest)) :
    ∃ beyond text, ItemText beyond item text ∧ c :: cs = text ++ rest := by
  unfold parseItem at h
  by_cases hgroup : c ∈ ['(', ')', '|', '\x7b', '\x7d']
  · rw [if_pos hgroup] at h
    cases h
  rw [if_neg hgroup] at h
  by_cases hanchor : c ∈ ['^', '$']
  · rw [if_pos hanchor] at h
    cases h
  rw [if_neg hanchor] at h
  by_cases hdot : c = '.'
  · rw [if_pos hdot] at h
    cases h
    exact ⟨false, ['.'], .any, by rw [hdot]; rfl⟩
  rw [if_neg hdot] at h
  by_cases hescape : c = '\\'
  · rw [if_pos hescape] at h
    cases cs with
    | nil => cases h
    | cons next cs =>
      dsimp only at h
      cases hpart : escapePart next with
      | error e =>
        rw [hpart] at h
        cases h
      | ok part =>
        obtain ⟨b, hb⟩ := escapePart_eq_ok_iff.mp hpart
        rw [hpart] at h
        refine ⟨b, ['\\', next], ?_⟩
        rw [hescape]
        cases part with
        | char x =>
          cases h
          exact ⟨.escapeChar hb, rfl⟩
        | _ =>
          cases h
          exact ⟨.escapeClass hb nofun, rfl⟩
  rw [if_neg hescape] at h
  by_cases hclass : c = '['
  · rw [if_pos hclass] at h
    rw [hclass]
    exact itemText_of_parseClass h
  rw [if_neg hclass] at h
  cases h
  by_cases hquantifier : c ∈ QUANTIFIERS
  · exact ⟨true, [c], .quantifier hquantifier, rfl⟩
  · refine ⟨false, [c], .literal fun hmeta => ?_, rfl⟩
    simp only [METACHARACTERS, QUANTIFIERS, List.mem_cons, List.not_mem_nil, or_false, not_or]
      at hmeta hgroup hanchor hquantifier
    tauto

/-- A class is what starts with a bracket. -/
theorem ItemText.klass_inv {b negated : Bool} {item : Item} {text : List Char}
    (h : ItemText b item ('[' :: (edge '^' negated ++ text)))
    (hcaret : negated = false → text.head? ≠ some '^') : ∃ parts, ClassText b true parts text := by
  generalize hwhole : '[' :: (edge '^' negated ++ text) = whole at h
  cases h with
  | any | escapeChar | escapeClass => cases hwhole
  | literal hc =>
    rw [← (List.cons.inj hwhole).1] at hc
    exact absurd (by decide) hc
  | quantifier hc =>
    rw [← (List.cons.inj hwhole).1] at hc
    exact absurd hc (by decide)
  | @klass _ negated' parts text' htext' hcaret' =>
    have hinside := (List.cons.inj hwhole).2
    cases negated with
    | true =>
      cases negated' with
      | true =>
        have hsame : text = text' := (List.cons.inj hinside).2
        exact ⟨parts, hsame ▸ htext'⟩
      | false => exact absurd (congrArg List.head? hinside).symm (hcaret' rfl)
    | false =>
      cases negated' with
      | true => exact absurd (congrArg List.head? hinside) (hcaret rfl)
      | false =>
        have hsame : text = text' := hinside
        exact ⟨parts, hsame ▸ htext'⟩

/-- An item is written with a rule beyond the documentation, or without one. -/
theorem ItemText.beyond_unique {b b' : Bool} {item item' : Item} {text : List Char}
    (h : ItemText b item text) (h' : ItemText b' item' text) : b = b' := by
  have hbracket : ∀ {negated : Bool} {inside : List Char} {c : Char},
      [c] = '[' :: (edge '^' negated ++ inside) → c ∈ METACHARACTERS ∧ c ∉ QUANTIFIERS := by
    intro negated inside c heq
    rw [(List.cons.inj heq).1]
    decide
  generalize hsame : text = text' at h'
  cases h with
  | any =>
    cases h' with
    | any => rfl
    | literal hc => exact absurd (by rw [← (List.cons.inj hsame).1]; decide) hc
    | quantifier hc => exact absurd hc (by rw [← (List.cons.inj hsame).1]; decide)
    | escapeChar | escapeClass | klass => cases hsame
  | literal hc =>
    cases h' with
    | any => rfl
    | literal => rfl
    | quantifier hc' =>
      rw [← (List.cons.inj hsame).1] at hc'
      exact absurd (mem_metacharacters_of_quantifier hc') hc
    | escapeChar | escapeClass => cases hsame
    | klass => exact absurd (hbracket hsame).1 hc
  | quantifier hc =>
    cases h' with
    | any => exact absurd hc (by rw [(List.cons.inj hsame).1]; decide)
    | literal hc' =>
      rw [← (List.cons.inj hsame).1] at hc'
      exact absurd (mem_metacharacters_of_quantifier hc) hc'
    | quantifier => rfl
    | escapeChar | escapeClass => cases hsame
    | klass => exact absurd hc (hbracket hsame).2
  | escapeChar hx =>
    cases h' with
    | any | literal | quantifier | klass => cases hsame
    | escapeChar hx' | escapeClass hx' =>
      cases hsame
      exact escapeOf_unique hx hx'
  | escapeClass hx =>
    cases h' with
    | any | literal | quantifier | klass => cases hsame
    | escapeChar hx' | escapeClass hx' =>
      cases hsame
      exact escapeOf_unique hx hx'
  | klass htext hcaret =>
    rw [← hsame] at h'
    obtain ⟨parts, htext'⟩ := h'.klass_inv hcaret
    exact htext.beyond_unique htext'

/-! ## Atoms -/

theorem quantify_of {a : Atom} {quantity : List Char} (h : QuantitySpelling a.min a.max quantity)
    {cs : List Char} (hcs : quantity = [] → ∀ c ∈ cs.head?, c ∉ QUANTIFIERS) :
    quantify a.item (quantity ++ cs) = (a, cs) := by
  obtain ⟨item, min, max, hle⟩ := a
  cases h with
  | once => exact quantify_spelling (a := ⟨item, 1, 1, hle⟩) .once (hcs rfl)
  | optional => rfl
  | star => rfl
  | plus => rfl

theorem quantity_of_quantify {item : Item} {cs rest : List Char} {a : Atom}
    (h : quantify item cs = (a, rest)) :
    ∃ quantity, QuantitySpelling a.min a.max quantity ∧ cs = quantity ++ rest ∧ a.item = item ∧
      (quantity = [] → ∀ c ∈ rest.head?, c ∉ QUANTIFIERS) := by
  unfold quantify at h
  split at h
  · cases h
    exact ⟨['*'], .star, rfl, rfl, nofun⟩
  · cases h
    exact ⟨['+'], .plus, rfl, rfl, nofun⟩
  · cases h
    exact ⟨['?'], .optional, rfl, rfl, nofun⟩
  · next hstar hplus hoptional =>
    cases h
    refine ⟨[], .once, rfl, rfl, fun _ c hc hmem => ?_⟩
    obtain ⟨tail, htail⟩ := List.head?_eq_some_iff.mp hc
    simp only [QUANTIFIERS, List.mem_cons, List.not_mem_nil, or_false] at hmem
    rcases hmem with hmem | hmem | hmem
    · exact hstar tail (by rw [htail, hmem])
    · exact hplus tail (by rw [htail, hmem])
    · exact hoptional tail (by rw [htail, hmem])

/-- The mark at the end is no quantifier. -/
theorem head?_edge {text : List Char} (h : ∀ c ∈ text.head?, c ∉ QUANTIFIERS) (anchoredEnd : Bool) :
    ∀ c ∈ (text ++ edge '$' anchoredEnd).head?, c ∉ QUANTIFIERS := by
  cases text with
  | nil =>
    intro c hc
    cases anchoredEnd with
    | true =>
      cases hc
      decide
    | false => cases hc
  | cons d text => exact h

theorem AtomsText.parseAtoms_eq {beyond : Bool} {as : List Atom} {text : List Char}
    (h : AtomsText beyond as text) (anchoredEnd : Bool) (acc : List Atom) {turns : Nat}
    (hturns : (text ++ edge '$' anchoredEnd).length ≤ turns) :
    parseAtoms turns acc (text ++ edge '$' anchoredEnd) = .ok (acc ++ as, anchoredEnd) := by
  induction h generalizing acc turns with
  | nil =>
    cases anchoredEnd with
    | true =>
      cases turns with
      | zero => cases hturns
      | succ turns => simp [parseAtoms]
    | false => cases turns <;> simp [parseAtoms]
  | @cons b beyond a as item quantity text hitem hquantity hbare htext ih =>
    obtain ⟨c, cs, rfl, hc, hparse⟩ := hitem.head
    cases turns with
    | zero => cases hturns
    | succ turns =>
      have hdollar : ¬ (c = '$' ∧ cs ++ (quantity ++ (text ++ edge '$' anchoredEnd)) = []) :=
        fun h => hc (by simp [h.1])
      have hquantify := quantify_of hquantity fun h => head?_edge (hbare h) anchoredEnd
      simp only [List.cons_append, List.append_assoc, List.length_cons, List.length_append]
        at hturns ⊢
      rw [parseAtoms, if_neg hdollar, hparse]
      dsimp only
      rw [hquantify]
      dsimp only
      rw [ih (acc ++ [a]) (by rw [List.length_append]; omega), List.append_assoc]
      rfl

theorem atomsText_of_parseAtoms {turns : Nat} {acc atoms : List Atom} {cs : List Char}
    {anchoredEnd : Bool} (h : parseAtoms turns acc cs = .ok (atoms, anchoredEnd)) :
    ∃ beyond as text, AtomsText beyond as text ∧ atoms = acc ++ as ∧
      cs = text ++ edge '$' anchoredEnd := by
  induction turns generalizing acc cs with
  | zero =>
    cases cs with
    | nil =>
      rw [parseAtoms] at h
      cases h
      exact ⟨false, [], [], .nil, (List.append_nil _).symm, rfl⟩
    | cons c cs => cases h
  | succ turns ih =>
    cases cs with
    | nil =>
      rw [parseAtoms] at h
      cases h
      exact ⟨false, [], [], .nil, (List.append_nil _).symm, rfl⟩
    | cons c cs =>
      rw [parseAtoms] at h
      by_cases hdollar : c = '$' ∧ cs = []
      · rw [if_pos hdollar] at h
        cases h
        refine ⟨false, [], [], .nil, (List.append_nil _).symm, ?_⟩
        rw [hdollar.1, hdollar.2]
        rfl
      · rw [if_neg hdollar] at h
        cases hparse : parseItem c cs with
        | error e =>
          rw [hparse] at h
          cases h
        | ok read =>
          obtain ⟨item, rest⟩ := read
          cases hquantify : quantify item rest with
          | mk a rest' =>
            rw [hparse] at h
            dsimp only at h
            rw [hquantify] at h
            dsimp only at h
            obtain ⟨b, itemText, hitem, hhead⟩ := itemText_of_parseItem hparse
            obtain ⟨quantity, hquantity, hrest, hsame, hbare⟩ := quantity_of_quantify hquantify
            obtain ⟨beyond, as, text, htext, hatoms, htail⟩ := ih h
            refine ⟨b || beyond, a :: as, itemText ++ quantity ++ text,
              .cons (hsame ▸ hitem) hquantity (fun hnone x hx => ?_) htext, ?_, ?_⟩
            · refine hbare hnone x ?_
              cases text with
              | nil => cases hx
              | cons d text =>
                rw [htail]
                exact hx
            · rw [hatoms, List.append_assoc]
              rfl
            · rw [hhead, hrest, htail, List.append_assoc, List.append_assoc]

/-- The text of an item is all that its parser takes of what stands there. -/
theorem ItemText.unique {b b' : Bool} {item item' : Item} {text text' rest rest' : List Char}
    (h : ItemText b item text) (h' : ItemText b' item' text')
    (heq : text ++ rest = text' ++ rest') : b = b' ∧ item = item' ∧ rest = rest' := by
  obtain ⟨c, cs, hcs, -, hparse⟩ := h.head
  obtain ⟨c', cs', hcs', -, hparse'⟩ := h'.head
  rw [hcs, hcs', List.cons_append, List.cons_append] at heq
  obtain ⟨hc, htail⟩ := List.cons.inj heq
  have hread := hparse rest
  rw [hc, htail, hparse' rest'] at hread
  cases hread
  have htext : text = text' := by rw [hcs, hcs', hc, List.append_cancel_right htail]
  exact ⟨h.beyond_unique (htext ▸ h'), rfl, rfl⟩

/-- A text is read with a rule beyond the documentation, or without one. -/
theorem AtomsText.beyond_unique {beyond beyond' : Bool} {as as' : List Atom} {text : List Char}
    (h : AtomsText beyond as text) (h' : AtomsText beyond' as' text) : beyond = beyond' := by
  induction h generalizing beyond' as' with
  | nil =>
    generalize htext : ([] : List Char) = text at h'
    cases h' with
    | nil => rfl
    | cons hitem =>
      obtain ⟨c, cs, hcs, _⟩ := hitem.head
      rw [hcs] at htext
      cases htext
  | @cons b beyond a as item quantity text hitem hquantity hbare _ ih =>
    generalize hsame : item ++ quantity ++ text = whole at h'
    cases h' with
    | nil =>
      obtain ⟨c, cs, hcs, _⟩ := hitem.head
      rw [hcs] at hsame
      cases hsame
    | @cons b' _ a' as' item' quantity' text' hitem' hquantity' hbare' hrest' =>
      rw [List.append_assoc, List.append_assoc] at hsame
      obtain ⟨hb, hitems, htail⟩ := hitem.unique hitem' hsame
      have hread := quantify_of hquantity hbare
      rw [hitems, htail, quantify_of hquantity' hbare'] at hread
      cases hread
      rw [hb, ih hrest']

/-! ## Patterns -/

theorem AtomsText.head {beyond : Bool} {as : List Atom} {text : List Char}
    (h : AtomsText beyond as text) (anchoredEnd : Bool) :
    (text ++ edge '$' anchoredEnd).head? ≠ some '^' := by
  cases h with
  | nil => cases anchoredEnd <;> decide
  | cons hitem =>
    obtain ⟨c, cs, hcs, hc, _⟩ := hitem.head
    rw [hcs]
    exact fun h => hc (by rw [Option.some.inj h]; decide)

/-- Every source of the grammar is compiled to what it says. -/
theorem Pattern.Written.parse_eq {p : Pattern} {beyond : Bool} {source : String}
    (h : p.Written beyond source) : Pattern.parse source = .ok p := by
  obtain ⟨text, hatoms, hsource⟩ := h
  obtain ⟨anchoredStart, anchoredEnd, atoms⟩ := p
  rw [List.append_assoc] at hsource
  exact parse_of_parseAtoms hsource (hatoms.head anchoredEnd)
    (hatoms.parseAtoms_eq anchoredEnd [] (Nat.le_refl _))

/-- Every source that is compiled is in the grammar. -/
theorem Pattern.written_of_parse {p : Pattern} {source : String}
    (h : Pattern.parse source = .ok p) : ∃ beyond, p.Written beyond source := by
  unfold Pattern.parse at h
  dsimp only at h
  cases hstart : source.toList.head? == some '^' with
  | true =>
    obtain ⟨tail, htail⟩ := List.head?_eq_some_iff.mp (beq_iff_eq.mp hstart)
    rw [hstart, if_pos rfl] at h
    cases hparse : parseAtoms source.toList.tail.length [] source.toList.tail with
    | error e =>
      rw [hparse] at h
      cases h
    | ok read =>
      rw [hparse] at h
      cases h
      obtain ⟨beyond, as, text, htext, hatoms, hbody⟩ := atomsText_of_parseAtoms hparse
      rw [htail, List.tail_cons] at hbody
      refine ⟨beyond, text, by rw [hatoms]; exact htext, ?_⟩
      rw [htail, hbody]
      rfl
  | false =>
    rw [hstart, if_neg Bool.false_ne_true] at h
    cases hparse : parseAtoms source.toList.length [] source.toList with
    | error e =>
      rw [hparse] at h
      cases h
    | ok read =>
      rw [hparse] at h
      cases h
      obtain ⟨beyond, as, text, htext, hatoms, hbody⟩ := atomsText_of_parseAtoms hparse
      exact ⟨beyond, text, by rw [hatoms]; exact htext, hbody⟩

theorem Pattern.Written.beyond_unique {p p' : Pattern} {beyond beyond' : Bool} {source : String}
    (h : p.Written beyond source) (h' : p'.Written beyond' source) : beyond = beyond' := by
  have hsame := h.parse_eq
  rw [h'.parse_eq] at hsame
  cases hsame
  obtain ⟨text, htext, hsource⟩ := h
  obtain ⟨text', htext', hsource'⟩ := h'
  rw [hsource] at hsource'
  have heq := List.append_cancel_left (List.append_cancel_right hsource')
  rw [← heq] at htext'
  exact htext.beyond_unique htext'

theorem Pattern.Written.not_documented {p : Pattern} {source : String} (h : p.Written true source)
    (p' : Pattern) : ¬ p'.Documented source := by
  intro h'
  cases h.beyond_unique h'

/-- The parser takes the documented grammar and reads it as written, except for the
sources that need one of the rules beyond it. -/
theorem parse_documented_iff (source : String) :
    (∀ p, Pattern.parse source = .ok p ↔ p.Documented source) ↔
      ¬ ∃ p : Pattern, p.Written true source := by
  constructor
  · intro hdocumented hex
    obtain ⟨p, hp⟩ := hex
    exact hp.not_documented p ((hdocumented p).mp hp.parse_eq)
  · intro hnone p
    constructor
    · intro hparse
      obtain ⟨beyond, hwritten⟩ := Pattern.written_of_parse hparse
      cases beyond with
      | true => exact absurd ⟨p, hwritten⟩ hnone
      | false => exact hwritten
    · exact fun hwritten => hwritten.parse_eq

theorem written_bare_quantifier :
    Pattern.Written ⟨false, false, [⟨.literal '*', 1, 1, by decide⟩,
      ⟨.literal 'a', 1, 1, by decide⟩]⟩ true "*a" := by
  have hlast : AtomsText (false || false) [⟨.literal 'a', 1, 1, by decide⟩] (['a'] ++ [] ++ []) :=
    .cons (.literal (by decide)) .once nofun .nil
  have hboth : AtomsText (true || false) [⟨.literal '*', 1, 1, by decide⟩,
      ⟨.literal 'a', 1, 1, by decide⟩] (['*'] ++ [] ++ ['a']) :=
    .cons (.quantifier (by decide)) .once (fun _ c hc => by cases hc; decide) hlast
  exact ⟨['*', 'a'], hboth, rfl⟩

/-- A quantifier with nothing before it is read as a literal. -/
theorem bare_quantifier_taken :
    Pattern.parse "*a" = .ok ⟨false, false, [⟨.literal '*', 1, 1, by decide⟩,
      ⟨.literal 'a', 1, 1, by decide⟩]⟩ ∧
      ¬ ∀ p, Pattern.parse "*a" = .ok p ↔ p.Documented "*a" :=
  ⟨written_bare_quantifier.parse_eq, fun hall => written_bare_quantifier.not_documented _
    ((hall _).mp written_bare_quantifier.parse_eq)⟩

end Validation
end IndieWorker
