import IndieWorker.Validation.PatternParse

/-!
# Regular expressions of ECMAScript

What `new RegExp(source, 'u')` makes of the sources that it shares with
`Pattern::parse`.  Such a source spells the same items in the same order, so the
two engines differ only in the characters that an item stands for: `\w` is ASCII,
`\s` counts U+FEFF and not U+0085, and the dot stops at every line terminator.
-/

namespace IndieWorker
namespace TypeScript

open Validation

namespace RegExp

/-- The SyntaxCharacters of the grammar. -/
def SYNTAX_CHARACTERS : List Char := ']' :: METACHARACTERS

def escape (c : Char) : Option ClassPart :=
  if c = 'd' then some (.digit true)
  else if c = 'D' then some (.digit false)
  else if c = 'w' then some (.word true)
  else if c = 'W' then some (.word false)
  else if c = 's' then some (.space true)
  else if c = 'S' then some (.space false)
  else if c = 'n' then some (.char '\n')
  else if c = 'r' then some (.char '\r')
  else if c = 't' then some (.char '\t')
  -- an identity escape, which the `u` flag grants to no other character
  else if c = '/' ∨ c ∈ SYNTAX_CHARACTERS then some (.char c)
  else none

def classEscape (c : Char) : Option ClassPart :=
  if c = '-' then some (.char c) else escape c

/-- What is in front of these characters in a class makes no range with them. -/
def NoRange (cs : List Char) : Prop := ∀ hi tail, cs = '-' :: hi :: tail → hi = ']'

/-! The common part of the two pattern languages, as ECMAScript reads it. -/

/-- The inside of a class with its bracket; `first` where nothing stands before it. -/
inductive ClassSpelling : Bool → List ClassPart → List Char → Prop
  | close : ClassSpelling false [] [']']
  | escape {first : Bool} {c : Char} {part : ClassPart} {parts : List ClassPart}
      {text : List Char} : classEscape c = some part → NoRange text →
      ClassSpelling false parts text → ClassSpelling first (part :: parts) ('\\' :: c :: text)
  | range {first : Bool} {lo hi : Char} {parts : List ClassPart} {text : List Char} :
      lo ∉ [']', '\\'] → hi ∉ [']', '\\'] → lo ≤ hi → ClassSpelling false parts text →
      ClassSpelling first (.range lo hi :: parts) (lo :: '-' :: hi :: text)
  | char {first : Bool} {c : Char} {parts : List ClassPart} {text : List Char} :
      c ∉ [']', '\\'] → NoRange text → ClassSpelling false parts text →
      ClassSpelling first (.char c :: parts) (c :: text)

inductive ItemSpelling : Item → List Char → Prop
  | any : ItemSpelling .any ['.']
  | literal {c : Char} : c ∉ SYNTAX_CHARACTERS → ItemSpelling (.literal c) [c]
  | escapeChar {c x : Char} : escape c = some (.char x) → ItemSpelling (.literal x) ['\\', c]
  | escapeClass {c : Char} {part : ClassPart} : escape c = some part → (∀ x, part ≠ .char x) →
      ItemSpelling (.klass false [part]) ['\\', c]
  | klass {negated : Bool} {parts : List ClassPart} {text : List Char} :
      ClassSpelling true parts text → (negated = false → text.head? ≠ some '^') →
      ItemSpelling (.klass negated parts) ('[' :: (edge '^' negated ++ text))

inductive AtomsSpelling : List Atom → List Char → Prop
  | nil : AtomsSpelling [] []
  | cons {a : Atom} {as : List Atom} {item quantity text : List Char} :
      ItemSpelling a.item item → QuantitySpelling a.min a.max quantity → AtomsSpelling as text →
      AtomsSpelling (a :: as) (item ++ quantity ++ text)

/-- `source` is written in the common part and `p` is what it says. -/
def Spelling (p : Pattern) (source : String) : Prop :=
  ∃ text, AtomsSpelling p.atoms text ∧
    source.toList = edge '^' p.anchoredStart ++ text ++ edge '$' p.anchoredEnd

def isLineTerminator (c : Char) : Bool :=
  c.toNat == 0x0A || c.toNat == 0x0D || c.toNat == 0x2028 || c.toNat == 0x2029

/-- WhiteSpace and LineTerminator. -/
def isSpace (c : Char) : Bool :=
  c.toNat == 9 || c.toNat == 0x0B || c.toNat == 0x0C || c.toNat == 0xFEFF || c.toNat == 0x20 ||
    c.toNat == 0xA0 || c.toNat == 0x1680 || (0x2000 ≤ c.toNat && c.toNat ≤ 0x200A) ||
    c.toNat == 0x202F || c.toNat == 0x205F || c.toNat == 0x3000 || isLineTerminator c

def partMatches (c : Char) : ClassPart → Bool
  | .char x => x == c
  | .range lo hi => decide (lo ≤ c) && decide (c ≤ hi)
  | .digit positive => c.isDigit == positive
  | .word positive => (c.isAlphanum || c == '_') == positive
  | .space positive => isSpace c == positive

def itemMatches (item : Item) (c : Char) : Bool :=
  match item with
  | .any => !isLineTerminator c
  | .literal x => x == c
  | .klass negated parts => parts.any (partMatches c) != negated

end RegExp

/-- The constructor `RegExp` with the `u` flag, which throws a `SyntaxError` on
some sources.  A source of the common part has a match in a text exactly when the
pattern it spells has. -/
structure RegExp where
  compile : String → Option (String → Bool)
  compile_spelled : ∀ (p : Pattern) (source : String), RegExp.Spelling p source →
    ∃ test, compile source = some test ∧ ∀ text : String, text.toList.length < 2 ^ 53 →
      (test text = true ↔ p.Matches RegExp.itemMatches text.toList)

/-! ## What both engines compile -/

/-- The letters that are escaped. -/
def RegExp.ESCAPED : List Char :=
  ['d', 'D', 'w', 'W', 's', 'S', 'n', 'r', 't', '/'] ++ SYNTAX_CHARACTERS

theorem escapeOf_of_escape {c : Char} {part : ClassPart} (h : RegExp.escape c = some part) :
    ∃ b, escapeOf b c = some part := by
  have hall : (RegExp.ESCAPED.all fun c =>
      decide (RegExp.escape c = escapeOf true c ∨ RegExp.escape c = escapeOf false c)) = true := by
    decide
  have hmem : c ∈ RegExp.ESCAPED := by
    by_contra hother
    simp only [RegExp.ESCAPED, List.mem_append, List.mem_cons, List.not_mem_nil, or_false,
      not_or] at hother
    simp [RegExp.escape, hother] at h
  rcases of_decide_eq_true (List.all_eq_true.mp hall c hmem) with heq | heq
  · exact ⟨true, heq ▸ h⟩
  · exact ⟨false, heq ▸ h⟩

theorem escapeOf_of_classEscape {c : Char} {part : ClassPart}
    (h : RegExp.classEscape c = some part) : ∃ b, escapeOf b c = some part := by
  unfold RegExp.classEscape at h
  split at h
  · next hdash =>
    subst hdash
    cases h
    exact ⟨false, rfl⟩
  · exact escapeOf_of_escape h

namespace RegExp

theorem ClassSpelling.text {first : Bool} {parts : List ClassPart} {text : List Char}
    (h : ClassSpelling first parts text) : ∃ beyond, ClassText beyond first parts text := by
  have hescape : ∀ {c : Char}, c ∉ [']', '\\'] → c ≠ '\\' := fun hc h => hc (by simp [h])
  have hclose : ∀ {c : Char} {first : Bool}, c ∉ [']', '\\'] → c = ']' → first = true :=
    fun hc h => absurd (by simp [h]) hc
  induction h with
  | close => exact ⟨_, .close⟩
  | escape hc _ _ ih =>
    obtain ⟨b, hb⟩ := escapeOf_of_classEscape hc
    obtain ⟨beyond, htext⟩ := ih
    exact ⟨_, .escape hb htext⟩
  | range hlo hhi hle _ ih =>
    obtain ⟨beyond, htext⟩ := ih
    exact ⟨_, .range (hescape hlo) (hclose hlo) hhi hle htext⟩
  | char hc hcs _ ih =>
    obtain ⟨beyond, htext⟩ := ih
    exact ⟨_, .char (hescape hc) (hclose hc) (fun hi tail heq => Or.inl (hcs hi tail heq)) htext⟩

theorem ItemSpelling.text {item : Item} {text : List Char} (h : ItemSpelling item text) :
    ∃ beyond, ItemText beyond item text := by
  cases h with
  | any => exact ⟨_, .any⟩
  | literal hc => exact ⟨_, .literal fun hmeta => hc (List.mem_cons_of_mem _ hmeta)⟩
  | escapeChar hx =>
    obtain ⟨b, hb⟩ := escapeOf_of_escape hx
    exact ⟨b, .escapeChar hb⟩
  | escapeClass hpart hclass =>
    obtain ⟨b, hb⟩ := escapeOf_of_escape hpart
    exact ⟨b, .escapeClass hb hclass⟩
  | klass htext hcaret =>
    obtain ⟨beyond, hclass⟩ := htext.text
    exact ⟨beyond, .klass hclass hcaret⟩

theorem ItemSpelling.head {item : Item} {text : List Char} (h : ItemSpelling item text) :
    ∃ c cs, text = c :: cs ∧ c ∉ QUANTIFIERS := by
  cases h with
  | literal hc =>
    exact ⟨_, _, rfl,
      fun h => hc (List.mem_cons_of_mem _ (mem_metacharacters_of_quantifier h))⟩
  | _ => exact ⟨_, _, rfl, by decide⟩

theorem AtomsSpelling.head {as : List Atom} {text : List Char} (h : AtomsSpelling as text) :
    ∀ c ∈ text.head?, c ∉ QUANTIFIERS := by
  cases h with
  | nil => nofun
  | cons hitem =>
    obtain ⟨d, ds, rfl, hd⟩ := hitem.head
    intro c hc
    cases hc
    exact hd

theorem AtomsSpelling.text {as : List Atom} {text : List Char} (h : AtomsSpelling as text) :
    ∃ beyond, AtomsText beyond as text := by
  induction h with
  | nil => exact ⟨_, .nil⟩
  | cons hitem hquantity hrest ih =>
    obtain ⟨b, hb⟩ := hitem.text
    obtain ⟨beyond, htext⟩ := ih
    exact ⟨_, .cons hb hquantity (fun _ => hrest.head) htext⟩

/-- `Pattern::parse` reads what is written in the common part as `RegExp` does. -/
theorem parse_of_spelling {p : Pattern} {source : String} (h : Spelling p source) :
    Pattern.parse source = .ok p := by
  obtain ⟨text, hatoms, hsource⟩ := h
  obtain ⟨beyond, htext⟩ := hatoms.text
  exact Pattern.Written.parse_eq ⟨text, htext, hsource⟩

end RegExp

/-- An engine for the sources that `Pattern::parse` reads. -/
def RegExp.subset : RegExp where
  compile source := (Pattern.parse source).toOption.map fun p => p.isMatch RegExp.itemMatches
  compile_spelled p source h := by
    refine ⟨p.isMatch RegExp.itemMatches, ?_, fun text _ => Pattern.isMatch_iff⟩
    rw [RegExp.parse_of_spelling h]
    rfl

/-! ## Where the items stand for the same characters -/

theorem isSpace_of_ascii {c : Char} (hc : c.toNat < 128) :
    isWhitespace c = RegExp.isSpace c := by
  rw [Bool.eq_iff_iff]
  simp only [isWhitespace, RegExp.isSpace, RegExp.isLineTerminator, Bool.or_eq_true,
    Bool.and_eq_true, beq_iff_eq, decide_eq_true_eq]
  omega

/-- On ASCII the engines agree, but for the dot on a carriage return. -/
theorem itemMatches_of_ascii (u : Unicode) {c : Char} (hc : c.toNat < 128) (hcr : c ≠ '\r')
    (item : Item) : Item.matches u item c = RegExp.itemMatches item c := by
  cases item with
  | any =>
    have hdot : (c != '\n') = !RegExp.isLineTerminator c := by
      have hne : c.toNat ≠ 13 := fun h => hcr (Char.toNat_inj.mp h)
      have hnl : c = '\n' ↔ c.toNat = 10 := Char.toNat_inj.symm
      rw [Bool.eq_iff_iff]
      simp only [bne_iff_ne, ne_eq, hnl, RegExp.isLineTerminator, Bool.not_eq_true',
        Bool.or_eq_false_iff, beq_eq_false_iff_ne]
      omega
    exact hdot
  | literal x => rfl
  | klass negated parts =>
    have hparts : ClassPart.matches u c = RegExp.partMatches c := by
      funext part
      cases part with
      | word positive =>
        show ((u.isAlphanumeric c || c == '_') == positive) = _
        rw [u.below128 c hc]
        rfl
      | space positive =>
        show (isWhitespace c == positive) = _
        rw [isSpace_of_ascii hc]
        rfl
      | _ => rfl
    show (parts.any (ClassPart.matches u c) != negated) = _
    rw [hparts]
    rfl

end TypeScript
end IndieWorker
