import IndieWorker.Validation.Pattern

/-!
# The documented pattern grammar

How the source of a pattern is written: anchors, literals, the dot, escapes, character
classes and one postfix quantifier.  The parser takes more than its documentation lists,
so each judgement carries whether a rule beyond the documented ones was used: a quantifier
where an atom should start is taken for a literal, `\n`, `\r` and `\t` are escapes, and
a class may have a dash anywhere and a bracket first.  Without them it is the grammar of
the documentation, `Pattern.Documented`.
-/

namespace IndieWorker
namespace Validation

open Search

/-- The characters with a meaning of their own outside of a class. -/
def METACHARACTERS : List Char :=
  ['^', '$', '.', '\\', '[', '(', ')', '|', '\x7b', '\x7d', '*', '+', '?']

def QUANTIFIERS : List Char := ['*', '+', '?']

/-- The escapes of the module documentation: the classes and any punctuation. -/
def documentedEscape (c : Char) : Option ClassPart :=
  if c = 'd' then some (.digit true)
  else if c = 'D' then some (.digit false)
  else if c = 'w' then some (.word true)
  else if c = 'W' then some (.word false)
  else if c = 's' then some (.space true)
  else if c = 'S' then some (.space false)
  else if isAsciiPunctuation c then some (.char c)
  else none

/-- The escapes it leaves out. -/
def controlEscape (c : Char) : Option ClassPart :=
  if c = 'n' then some (.char '\n')
  else if c = 'r' then some (.char '\r')
  else if c = 't' then some (.char '\t')
  else none

/-- An escape of the documentation, or one beyond it. -/
def escapeOf (beyond : Bool) (c : Char) : Option ClassPart :=
  if beyond then controlEscape c else documentedEscape c

/-- A character that may stand at an edge. -/
def edge (c : Char) (present : Bool) : List Char := if present then [c] else []

@[simp] theorem edge_true (c : Char) : edge c true = [c] := rfl

@[simp] theorem edge_false (c : Char) : edge c false = [] := rfl

inductive QuantitySpelling : Nat → Nat → List Char → Prop
  | once : QuantitySpelling 1 1 []
  | optional : QuantitySpelling 0 1 ['?']
  | star : QuantitySpelling 0 USIZE_MAX ['*']
  | plus : QuantitySpelling 1 USIZE_MAX ['+']

/-- Before these characters a character of a class stands for itself. -/
def Unranged (cs : List Char) : Prop := ∀ hi tail, cs = '-' :: hi :: tail → hi = ']' ∨ hi = '\\'

/-! ## The grammar -/

/-- What stands for itself in a class by the documentation: a dash at either edge only,
and no bracket. -/
def plainChar (first : Bool) (c : Char) (text : List Char) : Bool :=
  if c = '-' then first || decide (text = [']']) else decide (c ≠ ']')

/-- What bounds a range by the documentation. -/
def plainBound (c : Char) : Bool := decide (c ∉ ['-', ']'])

/-- The inside of a class with its bracket.  A bracket that comes first is literal, and
a dash between two literals makes a range. -/
inductive ClassText : Bool → Bool → List ClassPart → List Char → Prop
  | close : ClassText false false [] [']']
  | escape {b beyond first : Bool} {c : Char} {part : ClassPart} {parts : List ClassPart}
      {text : List Char} : escapeOf b c = some part → ClassText beyond false parts text →
      ClassText (b || beyond) first (part :: parts) ('\\' :: c :: text)
  | range {beyond first : Bool} {lo hi : Char} {parts : List ClassPart} {text : List Char} :
      lo ≠ '\\' → (lo = ']' → first = true) → hi ∉ [']', '\\'] → lo ≤ hi →
      ClassText beyond false parts text →
      ClassText (!(plainBound lo && plainBound hi) || beyond) first (.range lo hi :: parts)
        (lo :: '-' :: hi :: text)
  | char {beyond first : Bool} {c : Char} {parts : List ClassPart} {text : List Char} :
      c ≠ '\\' → (c = ']' → first = true) → Unranged text → ClassText beyond false parts text →
      ClassText (!plainChar first c text || beyond) first (.char c :: parts) (c :: text)

inductive ItemText : Bool → Item → List Char → Prop
  | any : ItemText false .any ['.']
  | literal {c : Char} : c ∉ METACHARACTERS → ItemText false (.literal c) [c]
  | quantifier {c : Char} : c ∈ QUANTIFIERS → ItemText true (.literal c) [c]
  | escapeChar {b : Bool} {c x : Char} : escapeOf b c = some (.char x) →
      ItemText b (.literal x) ['\\', c]
  | escapeClass {b : Bool} {c : Char} {part : ClassPart} : escapeOf b c = some part →
      (∀ x, part ≠ .char x) → ItemText b (.klass false [part]) ['\\', c]
  | klass {beyond negated : Bool} {parts : List ClassPart} {text : List Char} :
      ClassText beyond true parts text → (negated = false → text.head? ≠ some '^') →
      ItemText beyond (.klass negated parts) ('[' :: (edge '^' negated ++ text))

/-- An atom takes the quantifier behind it. -/
inductive AtomsText : Bool → List Atom → List Char → Prop
  | nil : AtomsText false [] []
  | cons {b beyond : Bool} {a : Atom} {as : List Atom} {item quantity text : List Char} :
      ItemText b a.item item → QuantitySpelling a.min a.max quantity →
      (quantity = [] → ∀ c ∈ text.head?, c ∉ QUANTIFIERS) → AtomsText beyond as text →
      AtomsText (b || beyond) (a :: as) (item ++ quantity ++ text)

/-- `source` is written in the grammar of the parser and `p` is what it says.  `beyond`
tells whether it uses a rule that is not documented. -/
def Pattern.Written (p : Pattern) (beyond : Bool) (source : String) : Prop :=
  ∃ text, AtomsText beyond p.atoms text ∧
    source.toList = edge '^' p.anchoredStart ++ text ++ edge '$' p.anchoredEnd

/-- `source` is written in the documented grammar and `p` is what it says. -/
def Pattern.Documented (p : Pattern) (source : String) : Prop := p.Written false source

/-! ## The steps of the parser -/

section ClassSteps

variable {negated first : Bool} {acc : List ClassPart} {cs : List Char}

theorem classParts_close :
    classParts negated acc false (']' :: cs) = .ok (.klass negated acc, cs) := by
  rw [classParts.eq_def]
  exact if_pos ⟨rfl, rfl⟩

theorem classParts_escape {c : Char} {part : ClassPart} (h : escapePart c = .ok part) :
    classParts negated acc first ('\\' :: c :: cs) =
      classParts negated (acc ++ [part]) false cs := by
  conv_lhs => rw [classParts.eq_def]
  dsimp only
  rw [if_neg (by simp), if_pos rfl, h]

theorem classParts_range {lo hi : Char} (hlo : lo ≠ '\\') (hfirst : lo = ']' → first = true)
    (hhi : hi ∉ [']', '\\']) (hle : lo ≤ hi) :
    classParts negated acc first (lo :: '-' :: hi :: cs) =
      classParts negated (acc ++ [.range lo hi]) false cs := by
  have hclose : ¬ (lo = ']' ∧ first = false) := by
    intro h
    rw [hfirst h.1] at h
    cases h.2
  have hhi' : hi ≠ ']' ∧ hi ≠ '\\' := ⟨fun h => hhi (by simp [h]), fun h => hhi (by simp [h])⟩
  conv_lhs => rw [classParts.eq_def]
  dsimp only
  rw [if_neg hclose, if_neg hlo]
  split
  · next heq =>
    cases heq
    rw [if_pos hhi', if_neg (Char.not_lt.mpr hle)]
  · next hother => exact absurd rfl (hother hi cs)

theorem classParts_single {c : Char} (hc : c ≠ '\\') (hfirst : c = ']' → first = true)
    (hcs : Unranged cs) :
    classParts negated acc first (c :: cs) = classParts negated (acc ++ [.char c]) false cs := by
  have hclose : ¬ (c = ']' ∧ first = false) := by
    intro h
    rw [hfirst h.1] at h
    cases h.2
  conv_lhs => rw [classParts.eq_def]
  dsimp only
  rw [if_neg hclose, if_neg hc]
  split
  · next hi tail =>
    rcases hcs hi tail rfl with h | h
    · rw [if_neg fun hne => hne.1 h]
    · rw [if_neg fun hne => hne.2 h]
  · rfl

end ClassSteps

theorem parseClass_negated (cs : List Char) : parseClass ('^' :: cs) = classParts true [] true cs :=
  rfl

theorem parseClass_plain {cs : List Char} (h : cs.head? ≠ some '^') :
    parseClass cs = classParts false [] true cs := by
  unfold parseClass
  split
  · exact absurd rfl h
  · rfl

theorem parseItem_literal {c : Char} (hc : c ∉ METACHARACTERS) (cs : List Char) :
    parseItem c cs = .ok (.literal c, cs) := by
  simp only [METACHARACTERS, List.mem_cons, List.not_mem_nil, or_false, not_or] at hc
  simp [parseItem, hc]

/-- An item and its quantifier are read back, if no quantifier follows. -/
theorem quantify_spelling {a : Atom} {quantity : List Char}
    (h : QuantitySpelling a.min a.max quantity) {cs : List Char}
    (hcs : ∀ c ∈ cs.head?, c ∉ ['*', '+', '?']) :
    quantify a.item (quantity ++ cs) = (a, cs) := by
  obtain ⟨item, min, max, hle⟩ := a
  cases h with
  | once =>
    rcases cs with _ | ⟨c, cs⟩
    · rfl
    have hc := hcs c rfl
    show quantify item (c :: cs) = _
    unfold quantify
    split
    · next heq => cases heq; exact absurd hc (by decide)
    · next heq => cases heq; exact absurd hc (by decide)
    · next heq => cases heq; exact absurd hc (by decide)
    · rfl
  | optional => rfl
  | star => rfl
  | plus => rfl

/-- A source is compiled by the loop over what follows its anchor. -/
theorem parse_of_parseAtoms {source : String} {anchoredStart anchoredEnd : Bool}
    {atoms : List Atom} {body : List Char}
    (hsource : source.toList = edge '^' anchoredStart ++ body) (hhead : body.head? ≠ some '^')
    (hparse : parseAtoms body.length [] body = .ok (atoms, anchoredEnd)) :
    Pattern.parse source = .ok ⟨anchoredStart, anchoredEnd, atoms⟩ := by
  unfold Pattern.parse
  rw [hsource]
  cases anchoredStart with
  | true =>
    have hstart : (edge '^' true ++ body).head? = some '^' := rfl
    have hrest : (edge '^' true ++ body).tail = body := rfl
    simp only [hstart, hrest, beq_self_eq_true, if_true]
    rw [hparse]
  | false =>
    have hstart : (body.head? == some '^') = false := by simpa using hhead
    simp only [edge_false, List.nil_append, hstart, Bool.false_eq_true, if_false]
    rw [hparse]

end Validation
end IndieWorker
