import IndieWorker.Lib.Search
import Mathlib.Algebra.Ring.Nat
import Mathlib.Data.List.Infix

/-!
# The pattern subset

`src/validation/pattern.rs`: a compiled pattern is a row of counted items between
two anchors.  Text is a list of characters, and a position in it is the list of
the characters still ahead.
-/

namespace IndieWorker
namespace Validation

open Search

/-- The alphanumeric table of the standard library.  Below 128 it is the ASCII one. -/
structure Unicode where
  isAlphanumeric : Char → Bool
  below128 : ∀ c : Char, c.toNat < 128 → isAlphanumeric c = c.isAlphanum

def isAsciiPunctuation (c : Char) : Bool :=
  (33 ≤ c.toNat && c.toNat ≤ 47) || (58 ≤ c.toNat && c.toNat ≤ 64) ||
    (91 ≤ c.toNat && c.toNat ≤ 96) || (123 ≤ c.toNat && c.toNat ≤ 126)

/-- `char::is_whitespace`: the characters with the property White_Space. -/
def isWhitespace (c : Char) : Bool :=
  (9 ≤ c.toNat && c.toNat ≤ 13) || c.toNat == 0x20 || c.toNat == 0x85 || c.toNat == 0xA0 ||
    c.toNat == 0x1680 || (0x2000 ≤ c.toNat && c.toNat ≤ 0x200A) || c.toNat == 0x2028 ||
    c.toNat == 0x2029 || c.toNat == 0x202F || c.toNat == 0x205F || c.toNat == 0x3000

inductive ClassPart where
  | char (c : Char)
  | range (lo hi : Char)
  | digit (positive : Bool)
  | word (positive : Bool)
  | space (positive : Bool)
  deriving DecidableEq, Repr

inductive Item where
  | any
  | literal (c : Char)
  | klass (negated : Bool) (parts : List ClassPart)
  deriving DecidableEq, Repr

/-- An item with the least and the greatest number of times it may stand. -/
abbrev Atom := Counted Item

/-- A compiled pattern. -/
structure Pattern where
  anchoredStart : Bool
  anchoredEnd : Bool
  atoms : List Atom
  deriving DecidableEq

/-- `usize::MAX`, the count without a bound. -/
def USIZE_MAX : Nat := 2 ^ 64 - 1

theorem one_le_usize_max : 1 ≤ USIZE_MAX := by decide

section Items

variable (u : Unicode)

def ClassPart.matches (c : Char) : ClassPart → Bool
  | .char x => x == c
  | .range lo hi => decide (lo ≤ c) && decide (c ≤ hi)
  | .digit positive => c.isDigit == positive
  | .word positive => (u.isAlphanumeric c || c == '_') == positive
  | .space positive => isWhitespace c == positive

def Item.matches (item : Item) (c : Char) : Bool :=
  match item with
  | .any => c != '\n'
  | .literal x => x == c
  | .klass negated parts => parts.any (ClassPart.matches u c) != negated

end Items

/-! ## Compiling -/

def escapePart (c : Char) : Except String ClassPart :=
  if c = 'd' then .ok (.digit true)
  else if c = 'D' then .ok (.digit false)
  else if c = 'w' then .ok (.word true)
  else if c = 'W' then .ok (.word false)
  else if c = 's' then .ok (.space true)
  else if c = 'S' then .ok (.space false)
  else if c = 'n' then .ok (.char '\n')
  else if c = 'r' then .ok (.char '\r')
  else if c = 't' then .ok (.char '\t')
  else if isAsciiPunctuation c then .ok (.char c)
  else .error ("unsupported escape \\" ++ String.singleton c)

/-- The loop of `parse_class`: the parts so far, whether none has been read, and
the characters ahead. -/
def classParts (negated : Bool) :
    List ClassPart → Bool → List Char → Except String (Item × List Char)
  | _, _, [] => .error "unterminated character class"
  | parts, first, c :: cs =>
    if c = ']' ∧ first = false then .ok (.klass negated parts, cs)
    else if c = '\\' then
      match cs with
      | [] => .error "trailing backslash in character class"
      | next :: cs =>
        match escapePart next with
        | .error e => .error e
        | .ok part => classParts negated (parts ++ [part]) false cs
    else
      match cs with
      -- a dash is a range only when it sits between two literals
      | '-' :: hi :: tail =>
        if hi ≠ ']' ∧ hi ≠ '\\' then
          if hi < c then
            .error ("inverted range " ++ String.singleton c ++ "-" ++ String.singleton hi)
          else classParts negated (parts ++ [.range c hi]) false tail
        else classParts negated (parts ++ [.char c]) false ('-' :: hi :: tail)
      | cs => classParts negated (parts ++ [.char c]) false cs

/-- `parse_class`, from the character after the bracket. -/
def parseClass : List Char → Except String (Item × List Char)
  | '^' :: cs => classParts true [] true cs
  | cs => classParts false [] true cs

/-- The item that starts with `c`, and the characters behind it. -/
def parseItem (c : Char) (cs : List Char) : Except String (Item × List Char) :=
  if c ∈ ['(', ')', '|', '\x7b', '\x7d'] then
    .error ("`" ++ String.singleton c ++ "` is outside the supported pattern subset")
  else if c ∈ ['^', '$'] then
    .error ("`" ++ String.singleton c ++ "` is only supported as an anchor")
  else if c = '.' then .ok (.any, cs)
  else if c = '\\' then
    match cs with
    | [] => .error "trailing backslash"
    | next :: cs =>
      match escapePart next with
      | .error e => .error e
      | .ok (.char ch) => .ok (.literal ch, cs)
      | .ok part => .ok (.klass false [part], cs)
  else if c = '[' then parseClass cs
  else .ok (.literal c, cs)

/-- The postfix quantifier of an item, if one follows. -/
def quantify (item : Item) : List Char → Atom × List Char
  | '*' :: cs => (⟨item, 0, USIZE_MAX, by decide⟩, cs)
  | '+' :: cs => (⟨item, 1, USIZE_MAX, by decide⟩, cs)
  | '?' :: cs => (⟨item, 0, 1, by decide⟩, cs)
  | cs => (⟨item, 1, 1, by decide⟩, cs)

/-- The loop of `parse`.  Every turn takes at least one character, so the length
of the source is turns enough. -/
def parseAtoms : Nat → List Atom → List Char → Except String (List Atom × Bool)
  | _, atoms, [] => .ok (atoms, false)
  | 0, _, _ :: _ => .error ""
  | turns + 1, atoms, c :: cs =>
    if c = '$' ∧ cs = [] then .ok (atoms, true)
    else
      match parseItem c cs with
      | .error e => .error e
      | .ok (item, rest) =>
        match quantify item rest with
        | (atom, rest) => parseAtoms turns (atoms ++ [atom]) rest

namespace Pattern

/-- Compile a pattern; the error says what lies outside the subset. -/
def parse (source : String) : Except String Pattern :=
  let chars := source.toList
  let anchoredStart := chars.head? == some '^'
  let body := if anchoredStart then chars.tail else chars
  match parseAtoms body.length [] body with
  | .error e => .error e
  | .ok (atoms, anchoredEnd) => .ok ⟨anchoredStart, anchoredEnd, atoms⟩

variable (ok : Item → Char → Bool)

def matchFrom (p : Pattern) (text : List Char) : Bool :=
  Search.matchFrom ok (fun rest => !p.anchoredEnd || rest.isEmpty) p.atoms text

/-- Unanchored patterns are searched.  `ok` is `Item.matches`. -/
def isMatch (p : Pattern) (text : String) : Bool :=
  if p.anchoredStart then p.matchFrom ok text.toList
  else text.toList.tails.any (p.matchFrom ok)

/-- Some stretch of the text is a segment for each atom, at the start or at the
end of the text where the pattern is anchored there. -/
def Matches (p : Pattern) (text : List Char) : Prop :=
  ∃ skipped start rest, text = skipped ++ start ∧ (p.anchoredStart = true → skipped = []) ∧
    Splits ok p.atoms start rest ∧ (p.anchoredEnd = true → rest = [])

variable {ok} {p : Pattern}

theorem matchFrom_iff_splits {text : List Char} :
    p.matchFrom ok text = true ↔
      ∃ rest, Splits ok p.atoms text rest ∧ (p.anchoredEnd = true → rest = []) := by
  rw [matchFrom, Search.matchFrom_iff]
  refine exists_congr fun rest => and_congr_right fun _ => ?_
  cases p.anchoredEnd <;> simp

/-- The matcher finds a match exactly when there is one. -/
theorem isMatch_iff {text : String} :
    p.isMatch ok text = true ↔ p.Matches ok text.toList := by
  unfold isMatch
  by_cases hstart : p.anchoredStart = true
  · rw [if_pos hstart, matchFrom_iff_splits]
    constructor
    · intro hex
      obtain ⟨rest, hsplit, hend⟩ := hex
      exact ⟨[], text.toList, rest, rfl, fun _ => rfl, hsplit, hend⟩
    · intro hex
      obtain ⟨skipped, start, rest, heq, hnil, hsplit, hend⟩ := hex
      rw [hnil hstart, List.nil_append] at heq
      exact ⟨rest, heq ▸ hsplit, hend⟩
  · rw [if_neg hstart, List.any_eq_true]
    constructor
    · intro hex
      obtain ⟨start, hmem, hmatch⟩ := hex
      obtain ⟨skipped, heq⟩ := List.mem_tails _ _ |>.mp hmem
      obtain ⟨rest, hsplit, hend⟩ := matchFrom_iff_splits.mp hmatch
      exact ⟨skipped, start, rest, heq.symm, fun h => absurd h hstart, hsplit, hend⟩
    · intro hex
      obtain ⟨skipped, start, rest, heq, -, hsplit, hend⟩ := hex
      exact ⟨start, (List.mem_tails _ _).mpr ⟨skipped, heq.symm⟩,
        matchFrom_iff_splits.mpr ⟨rest, hsplit, hend⟩⟩

/-- The matcher answers yes exactly when, from some position on, every atom can take a
number of characters within its bounds, all of which match its item, one atom after
the other.  The position is the start of the text and the last one its end where the
pattern is anchored there. -/
theorem isMatch_decides (u : Unicode) (p : Pattern) (text : String) :
    p.isMatch (Item.matches u) text = true ↔
      ∃ start ≤ text.toList.length, (p.anchoredStart = true → start = 0) ∧
        ∃ counts stop, Cut (Item.matches u) text.toList p.atoms counts start stop ∧
          (p.anchoredEnd = true → stop = text.toList.length) := by
  rw [isMatch_iff]
  constructor
  · intro hmatches
    obtain ⟨skipped, front, rest, htext, hstart, hsplit, hend⟩ := hmatches
    have hle : skipped.length ≤ text.toList.length := by
      rw [htext, List.length_append]
      omega
    have hfront : text.toList.drop skipped.length = front := by
      rw [htext, List.drop_left]
    rw [← hfront] at hsplit
    obtain ⟨counts, hcut⟩ := hsplit.cut hle
    refine ⟨skipped.length, hle, fun h => by rw [hstart h]; rfl, counts, _, hcut, fun h => ?_⟩
    rw [hend h]
    rfl
  · intro hex
    obtain ⟨start, hle, hstart, counts, stop, hcut, hend⟩ := hex
    refine ⟨text.toList.take start, text.toList.drop start, text.toList.drop stop,
      (List.take_append_drop start _).symm, fun h => ?_, (hcut.splits hle).2, fun h => ?_⟩
    · rw [hstart h, List.take_zero]
    · rw [hend h, List.drop_length]

/-- Readings of the items that agree on the text find the same matches. -/
theorem Matches.congr {ok' : Item → Char → Bool} {text : List Char}
    (h : p.Matches ok text)
    (hok : ∀ a ∈ p.atoms, ∀ c ∈ text, ok a.item c = ok' a.item c) : p.Matches ok' text := by
  obtain ⟨skipped, start, rest, rfl, hstart, hsplit, hend⟩ := h
  exact ⟨skipped, start, rest, rfl, hstart,
    hsplit.congr fun a ha c hc => hok a ha c (List.mem_append_right _ hc), hend⟩

theorem matches_congr {ok' : Item → Char → Bool} {text : List Char}
    (hok : ∀ a ∈ p.atoms, ∀ c ∈ text, ok a.item c = ok' a.item c) :
    p.Matches ok text ↔ p.Matches ok' text :=
  ⟨fun h => h.congr hok, fun h => h.congr fun a ha c hc => (hok a ha c hc).symm⟩

end Pattern

end Validation
end IndieWorker
