/-
Text as a list of characters: trimming, ASCII case and splitting.

Blanks are the characters with the Unicode property White_Space.
-/
import Mathlib.Algebra.Ring.Nat
import Mathlib.Data.List.DropRight
import Mathlib.Data.List.Induction

namespace IndieWorker
namespace Text

/-- The property White_Space. -/
def isWhitespace (c : Char) : Bool :=
  let n := c.toNat
  (0x09 ≤ n && n ≤ 0x0d) || n == 0x20 || n == 0x85 || n == 0xa0 || n == 0x1680 ||
    (0x2000 ≤ n && n ≤ 0x200a) || n == 0x2028 || n == 0x2029 || n == 0x202f || n == 0x205f ||
      n == 0x3000

/-- The text without the blanks at its ends. -/
def trim (text : List Char) : List Char :=
  (text.dropWhile isWhitespace).rdropWhile isWhitespace

def toAsciiLowercase (text : List Char) : List Char := text.map Char.toLower

def eqIgnoreAsciiCase (a b : List Char) : Bool := toAsciiLowercase a == toAsciiLowercase b

/-- The text before the first `c` and the text after it. -/
def splitOnce (c : Char) : List Char → Option (List Char × List Char)
  | [] => none
  | d :: rest =>
    if d = c then some ([], rest) else (splitOnce c rest).map fun p => (d :: p.1, p.2)

/-- The text before the last `c` and the text after it. -/
def rsplitOnce (c : Char) : List Char → Option (List Char × List Char)
  | [] => none
  | d :: rest =>
    match rsplitOnce c rest with
    | some (front, back) => some (d :: front, back)
    | none => if d = c then some ([], rest) else none

/-- `text.strip_suffix(back)`. -/
def stripSuffix (back text : List Char) : Option (List Char) :=
  if back.isSuffixOf text then some (text.take (text.length - back.length)) else none

/-- Does `part` occur in the text? -/
def contains (part : List Char) : List Char → Bool
  | [] => part.isEmpty
  | c :: rest => part.isPrefixOf (c :: rest) || contains part rest

/-- The pieces between the `c`s of a text, of which there is at least one. -/
def splitAll (c : Char) : List Char → List (List Char)
  | [] => [[]]
  | d :: rest =>
    if d = c then [] :: splitAll c rest
    else
      match splitAll c rest with
      | [] => [[d]]
      | piece :: pieces => (d :: piece) :: pieces

/-- `text.trim()` on strings. -/
def trimmed (s : String) : String := .ofList (trim s.toList)

/-- `text.trim_end_matches(c)` on strings. -/
def trimEndMatches (c : Char) (s : String) : String := .ofList (s.toList.rdropWhile (· == c))

/-- `text.starts_with(front)` on strings. -/
def startsWith (front s : String) : Bool := front.toList.isPrefixOf s.toList

/-- `text.to_ascii_lowercase()` on strings. -/
def lowered (s : String) : String := .ofList (toAsciiLowercase s.toList)

/-- The value of a list of decimal digits. -/
def digitsValue (digits : List Char) : Nat :=
  digits.foldl (fun n c => 10 * n + (c.toNat - '0'.toNat)) 0

/-- Digits, at least one, of a value that fits the width. -/
def parseDigits (width : Nat) (digits : List Char) : Option Nat :=
  if digits ≠ [] ∧ digits.all Char.isDigit ∧ digitsValue digits < 2 ^ width then
    some (digitsValue digits)
  else none

/-- `text.parse()` into an unsigned integer of a width. -/
def parseUnsigned (width : Nat) (s : String) : Option Nat :=
  match s.toList with
  | '+' :: rest => parseDigits width rest
  | chars => parseDigits width chars

/-- A text of blanks, or none at all. -/
def isBlank (s : String) : Bool := trim s.toList = []

/-- No printing ASCII character is a blank. -/
theorem not_isWhitespace_of_ascii {c : Char} (hlo : 0x20 < c.toNat) (hhi : c.toNat < 0x7f) :
    isWhitespace c = false := by
  simp only [isWhitespace, Bool.or_eq_false_iff, Bool.and_eq_false_iff, decide_eq_false_iff_not,
    beq_eq_false_iff_ne]
  omega

theorem isAlpha_eq (c : Char) : c.isAlpha = (c.isUpper || c.isLower) := rfl

theorem isUpper_iff {c : Char} : c.isUpper = true ↔ 0x41 ≤ c.toNat ∧ c.toNat ≤ 0x5a := by
  show decide (c.val ≥ 'A'.val ∧ c.val ≤ 'Z'.val) = true ↔ _
  rw [decide_eq_true_eq, ge_iff_le, UInt32.le_iff_toNat_le, UInt32.le_iff_toNat_le]
  exact Iff.rfl

theorem isLower_iff {c : Char} : c.isLower = true ↔ 0x61 ≤ c.toNat ∧ c.toNat ≤ 0x7a := by
  show (decide (c.val ≥ 'a'.val) && decide (c.val ≤ 'z'.val)) = true ↔ _
  rw [Bool.and_eq_true, decide_eq_true_eq, decide_eq_true_eq, ge_iff_le, UInt32.le_iff_toNat_le,
    UInt32.le_iff_toNat_le]
  exact Iff.rfl

theorem toNat_of_isAlphanum {c : Char} (h : c.isAlphanum = true) :
    0x30 ≤ c.toNat ∧ c.toNat ≤ 0x7a := by
  rw [Char.isAlphanum, isAlpha_eq, Bool.or_eq_true, Bool.or_eq_true, isUpper_iff, isLower_iff] at h
  rcases h with (hupper | hlower) | hdigit
  · omega
  · omega
  · simp only [Char.isDigit, Bool.and_eq_true, decide_eq_true_eq, ge_iff_le,
      UInt32.le_iff_toNat_le] at hdigit
    have hbounds : '0'.val.toNat = 0x30 ∧ '9'.val.toNat = 0x39 := ⟨rfl, rfl⟩
    show 0x30 ≤ c.val.toNat ∧ c.val.toNat ≤ 0x7a
    omega

theorem not_isWhitespace_of_isAlphanum {c : Char} (h : c.isAlphanum = true) :
    isWhitespace c = false := by
  obtain ⟨hlo, hhi⟩ := toNat_of_isAlphanum h
  exact not_isWhitespace_of_ascii (by omega) (by omega)

/-- What is trimmed begins and ends with something other than a blank. -/
theorem trim_trim (text : List Char) : trim (trim text) = trim text := by
  have hfront : (trim text).dropWhile isWhitespace = trim text := by
    rw [List.dropWhile_eq_self_iff]
    intro hpos
    have hprefix : trim text <+: text.dropWhile isWhitespace := List.rdropWhile_prefix ..
    have hlen : 0 < (text.dropWhile isWhitespace).length :=
      Nat.lt_of_lt_of_le hpos hprefix.length_le
    have hhead : (trim text)[0] = (text.dropWhile isWhitespace)[0] := hprefix.getElem hpos
    rw [hhead]
    exact List.dropWhile_get_zero_not _ _ hlen
  show ((trim text).dropWhile isWhitespace).rdropWhile isWhitespace = trim text
  rw [hfront]
  exact List.rdropWhile_idempotent ..

theorem trim_append {front back : List Char} (text : List Char)
    (hfront : ∀ c ∈ front, isWhitespace c = true) (hback : ∀ c ∈ back, isWhitespace c = true) :
    trim (front ++ text ++ back) = trim text := by
  have hrest : trim (text ++ back) = trim text := by
    induction back using List.reverseRecOn with
    | nil => rw [List.append_nil]
    | append_singleton back c ih =>
      rw [← ih fun d hd => hback d (List.mem_append_left _ hd), ← List.append_assoc]
      have hc := hback c (List.mem_append_right _ (List.mem_singleton_self c))
      unfold trim
      rw [List.dropWhile_append]
      split
      · next hnil =>
        rw [List.isEmpty_iff] at hnil
        rw [hnil, List.dropWhile_cons_of_pos hc]
        rfl
      · exact List.rdropWhile_concat_pos _ _ _ hc
  rw [← hrest, List.append_assoc]
  unfold trim
  rw [List.dropWhile_append_of_pos hfront]

theorem trim_prefix_suffix (text : List Char) : ∃ front back, text = front ++ trim text ++ back ∧
    (∀ c ∈ front, isWhitespace c = true) ∧ ∀ c ∈ back, isWhitespace c = true := by
  refine ⟨text.takeWhile isWhitespace,
    (text.dropWhile isWhitespace).rtakeWhile isWhitespace, ?_, fun c hc => ?_, fun c hc => ?_⟩
  · rw [trim, List.append_assoc, List.rdropWhile_append_rtakeWhile, List.takeWhile_append_dropWhile]
  · exact List.mem_takeWhile_imp hc
  · exact List.mem_rtakeWhile_imp hc

theorem mem_of_mem_trim {text : List Char} {c : Char} (h : c ∈ trim text) : c ∈ text :=
  (List.dropWhile_suffix _).subset ((List.rdropWhile_prefix _ _).subset h)

/-- Trimming a text that is not trimmed makes it shorter. -/
theorem trim_eq_self_of_length {text : List Char} (h : text.length ≤ (trim text).length) :
    trim text = text := by
  obtain ⟨front, back, htext, _, _⟩ := trim_prefix_suffix text
  have hlen := congrArg List.length htext
  rw [List.length_append, List.length_append] at hlen
  have hfront : front = [] := List.length_eq_zero_iff.mp (by omega)
  have hback : back = [] := List.length_eq_zero_iff.mp (by omega)
  rw [hfront, hback, List.nil_append, List.append_nil] at htext
  exact htext.symm

theorem trim_eq_nil_iff {text : List Char} :
    trim text = [] ↔ ∀ c ∈ text, isWhitespace c = true := by
  constructor
  · intro h
    obtain ⟨front, back, htext, hfront, hback⟩ := trim_prefix_suffix text
    rw [h, List.append_nil] at htext
    intro c hc
    rw [htext] at hc
    exact (List.mem_append.mp hc).elim (hfront c) (hback c)
  · intro h
    have hback : trim (text ++ [] ++ []) = trim [] := trim_append [] h (List.forall_mem_nil _)
    rw [List.append_nil, List.append_nil] at hback
    exact hback

/-- A text is trimmed when neither its first nor its last character is a blank. -/
theorem trim_eq_self_iff {text : List Char} :
    trim text = text ↔ (∀ c, text.head? = some c → isWhitespace c = false) ∧
      ∀ c, text.getLast? = some c → isWhitespace c = false := by
  constructor
  · intro h
    have hdrop : text.dropWhile isWhitespace = text := by
      refine (List.dropWhile_suffix _).eq_of_length_le ?_
      have hle := (List.rdropWhile_prefix isWhitespace (text.dropWhile isWhitespace)).length_le
      rwa [show (text.dropWhile isWhitespace).rdropWhile isWhitespace = text from h] at hle
    have hrdrop : text.rdropWhile isWhitespace = text := by
      rw [trim, hdrop] at h
      exact h
    refine ⟨fun c hc => ?_, fun c hc => ?_⟩
    · rw [List.head?_eq_some_iff] at hc
      obtain ⟨rest, rfl⟩ := hc
      by_contra hblank
      rw [List.dropWhile_cons_of_pos (by simpa using hblank)] at hdrop
      have hle := (List.dropWhile_suffix isWhitespace (l := rest)).length_le
      rw [hdrop, List.length_cons] at hle
      omega
    · rw [List.getLast?_eq_some_iff] at hc
      obtain ⟨front, rfl⟩ := hc
      by_contra hblank
      rw [List.rdropWhile_concat_pos _ _ _ (by simpa using hblank)] at hrdrop
      have hle := (List.rdropWhile_prefix isWhitespace front).length_le
      rw [hrdrop, List.length_append, List.length_singleton] at hle
      omega
  · intro h
    obtain ⟨hhead, hlast⟩ := h
    have hdrop : text.dropWhile isWhitespace = text := by
      cases text with
      | nil => rfl
      | cons c text => exact List.dropWhile_cons_of_neg (Bool.not_eq_true _ ▸ hhead c rfl)
    rw [trim, hdrop, List.rdropWhile_eq_self_iff]
    intro hne
    rw [hlast _ (List.getLast?_eq_some_getLast hne)]
    exact Bool.false_ne_true

theorem trim_eq_self {text : List Char} (h : ∀ c ∈ text, isWhitespace c = false) :
    trim text = text :=
  trim_eq_self_iff.mpr ⟨fun c hc => h c (List.mem_of_head? hc),
    fun c hc => h c (List.mem_of_getLast? hc)⟩

/-- Characters that are no blanks stay at the end of what is trimmed. -/
theorem trim_append_solid {text back : List Char} (htext : trim text = text)
    (hback : ∀ c ∈ back, isWhitespace c = false) : trim (text ++ back) = text ++ back := by
  obtain ⟨hhead, hlast⟩ := trim_eq_self_iff.mp htext
  refine trim_eq_self_iff.mpr ⟨fun c hc => ?_, fun c hc => ?_⟩
  · rw [List.head?_append, Option.or_eq_some_iff] at hc
    exact hc.elim (hhead c) fun hc => hback c (List.mem_of_head? hc.2)
  · rw [List.getLast?_append, Option.or_eq_some_iff] at hc
    exact hc.elim (fun hc => hback c (List.mem_of_getLast? hc)) fun hc => hlast c hc.2

theorem rdropWhile_append_of_pos {α : Type} {p : α → Bool} (text : List α) {back : List α}
    (h : ∀ c ∈ back, p c = true) : (text ++ back).rdropWhile p = text.rdropWhile p := by
  induction back using List.reverseRecOn with
  | nil => rw [List.append_nil]
  | append_singleton back c ih =>
    rw [← List.append_assoc, List.rdropWhile_concat_pos _ _ _ (h c (by simp))]
    exact ih fun d hd => h d (List.mem_append_left _ hd)

/-- Behind a text that keeps its end, only what follows is dropped. -/
theorem rdropWhile_append_of_self {α : Type} {p : α → Bool} {text : List α}
    (h : text.rdropWhile p = text) (back : List α) :
    (text ++ back).rdropWhile p = text ++ back.rdropWhile p := by
  induction back using List.reverseRecOn with
  | nil => rw [List.append_nil, List.rdropWhile_nil, List.append_nil, h]
  | append_singleton back c ih =>
    rw [← List.append_assoc]
    by_cases hc : p c = true
    · rw [List.rdropWhile_concat_pos _ _ _ hc, List.rdropWhile_concat_pos _ _ _ hc, ih]
    · rw [List.rdropWhile_concat_neg _ _ _ hc, List.rdropWhile_concat_neg _ _ _ hc,
        List.append_assoc]

theorem rdropWhile_of_trim {text : List Char} (h : trim text = text) :
    text.rdropWhile isWhitespace = text := by
  rw [← h]
  exact List.rdropWhile_idempotent ..

/-- Behind a trimmed text only the blanks at the end go. -/
theorem trim_append_of_trim {text : List Char} (htext : trim text = text) (hne : text ≠ [])
    (back : List Char) : trim (text ++ back) = text ++ back.rdropWhile isWhitespace := by
  have hdrop : (text ++ back).dropWhile isWhitespace = text ++ back := by
    cases text with
    | nil => exact absurd rfl hne
    | cons c text =>
      have hc := (trim_eq_self_iff.mp htext).1 c rfl
      exact List.dropWhile_cons_of_neg (Bool.not_eq_true _ ▸ hc)
  rw [trim, hdrop]
  exact rdropWhile_append_of_self (rdropWhile_of_trim htext) back

/-! ## ASCII case -/

theorem toNat_toLower (c : Char) :
    c.toLower.toNat = if c.isUpper = true then c.toNat + 32 else c.toNat := by
  unfold Char.toLower
  split
  · next h =>
    rw [ge_iff_le, UInt32.le_iff_toNat_le, UInt32.le_iff_toNat_le] at h
    rw [if_pos (isUpper_iff.mpr h)]
    have hz : 'Z'.val.toNat = 0x5a := rfl
    have hstep : ('a'.val - 'A'.val).toNat = 32 := rfl
    show (c.val + ('a'.val - 'A'.val)).toNat = c.val.toNat + 32
    rw [UInt32.toNat_add, hstep]
    omega
  · next h =>
    rw [ge_iff_le, UInt32.le_iff_toNat_le, UInt32.le_iff_toNat_le] at h
    rw [if_neg fun hupper => h (isUpper_iff.mp hupper)]

theorem toLower_of_not_isUpper {c : Char} (h : ¬ c.isUpper = true) : c.toLower = c := by
  rw [← Char.toNat_inj, toNat_toLower, if_neg h]

theorem isUpper_toLower (c : Char) : c.toLower.isUpper = false := by
  rw [← Bool.not_eq_true, isUpper_iff, toNat_toLower]
  by_cases h : c.isUpper = true
  · rw [if_pos h]
    have := isUpper_iff.mp h
    omega
  · rw [if_neg h]
    exact fun hrange => h (isUpper_iff.mpr hrange)

theorem isWhitespace_toLower (c : Char) : isWhitespace c.toLower = isWhitespace c := by
  by_cases h : c.isUpper = true
  · have hlower := toNat_toLower c
    rw [if_pos h] at hlower
    rw [isUpper_iff] at h
    rw [not_isWhitespace_of_ascii (by omega) (by omega),
      not_isWhitespace_of_ascii (by omega) (by omega)]
  · rw [toLower_of_not_isUpper h]

/-- A character that is no letter is what it was before. -/
theorem toLower_eq_iff {c d : Char} (hd : d.isAlpha = false) : c.toLower = d ↔ c = d := by
  have hupper : ∀ e : Char, e = d → ¬ e.isUpper = true := by
    intro e he hupper
    rw [← he, isAlpha_eq, hupper] at hd
    cases hd
  constructor
  · intro h
    by_cases hc : c.isUpper = true
    · have hlower : d.isLower = true := by
        have hc' := isUpper_iff.mp hc
        have hnat := toNat_toLower c
        rw [if_pos hc, h] at hnat
        rw [isLower_iff]
        omega
      rw [isAlpha_eq, hlower, Bool.or_true] at hd
      cases hd
    · rw [← h, toLower_of_not_isUpper hc]
  · intro h
    rw [toLower_of_not_isUpper (hupper c h), h]

theorem toAsciiLowercase_append (a b : List Char) :
    toAsciiLowercase (a ++ b) = toAsciiLowercase a ++ toAsciiLowercase b :=
  List.map_append

theorem toAsciiLowercase_idem (text : List Char) :
    toAsciiLowercase (toAsciiLowercase text) = toAsciiLowercase text := by
  rw [toAsciiLowercase, toAsciiLowercase, List.map_map]
  exact List.map_congr_left fun c _ =>
    toLower_of_not_isUpper (Bool.not_eq_true _ ▸ isUpper_toLower c)

theorem mem_toAsciiLowercase {text : List Char} {d : Char} (hd : d.isAlpha = false) :
    d ∈ toAsciiLowercase text ↔ d ∈ text := by
  rw [toAsciiLowercase, List.mem_map]
  constructor
  · intro h
    obtain ⟨c, hc, hcd⟩ := h
    rwa [← (toLower_eq_iff hd).mp hcd]
  · intro h
    exact ⟨d, h, (toLower_eq_iff hd).mpr rfl⟩

theorem rdropWhile_map {α β : Type} (f : α → β) (p : β → Bool) (l : List α) :
    (l.map f).rdropWhile p = (l.rdropWhile (p ∘ f)).map f := by
  rw [List.rdropWhile, List.rdropWhile, ← List.map_reverse, List.dropWhile_map, List.map_reverse]

/-- Trimming and lowering do not get in each other's way. -/
theorem trim_toAsciiLowercase (text : List Char) :
    trim (toAsciiLowercase text) = toAsciiLowercase (trim text) := by
  have hsame : isWhitespace ∘ Char.toLower = isWhitespace := funext isWhitespace_toLower
  rw [trim, toAsciiLowercase, List.dropWhile_map, rdropWhile_map, hsame]
  rfl

/-! ## Splitting -/

theorem splitOnce_eq_some_iff {c : Char} {text front back : List Char} :
    splitOnce c text = some (front, back) ↔ text = front ++ c :: back ∧ c ∉ front := by
  induction text generalizing front with
  | nil => simp [splitOnce]
  | cons d text ih =>
    rw [splitOnce]
    by_cases hd : d = c
    · rw [if_pos hd]
      constructor
      · intro h
        cases h
        exact ⟨by rw [hd]; rfl, List.not_mem_nil⟩
      · intro h
        obtain ⟨htext, hfront⟩ := h
        cases front with
        | nil => rw [(List.cons.inj htext).2]
        | cons e front =>
          have he : e = c := (List.cons.inj htext).1.symm.trans hd
          exact absurd (he ▸ List.mem_cons_self) hfront
    · rw [if_neg hd, Option.map_eq_some_iff]
      constructor
      · intro h
        obtain ⟨⟨f, b⟩, hsplit, heq⟩ := h
        cases heq
        obtain ⟨htext, hfront⟩ := ih.mp hsplit
        exact ⟨congrArg (d :: ·) htext, List.not_mem_cons_of_ne_of_not_mem (Ne.symm hd) hfront⟩
      · intro h
        obtain ⟨htext, hfront⟩ := h
        cases front with
        | nil => exact absurd (List.cons.inj htext).1 hd
        | cons e front =>
          obtain ⟨he, hrest⟩ := List.cons.inj htext
          subst he
          exact ⟨(front, back), ih.mpr ⟨hrest, fun h => hfront (List.mem_cons_of_mem _ h)⟩, rfl⟩

theorem rsplitOnce_of_not_mem {c : Char} {text : List Char} (h : c ∉ text) :
    rsplitOnce c text = none := by
  induction text with
  | nil => rfl
  | cons d text ih =>
    rw [List.mem_cons, not_or] at h
    rw [rsplitOnce, ih h.2]
    exact if_neg (Ne.symm h.1)

theorem rsplitOnce_append_cons {c : Char} (front : List Char) {back : List Char} (h : c ∉ back) :
    rsplitOnce c (front ++ c :: back) = some (front, back) := by
  induction front with
  | nil =>
    rw [List.nil_append, rsplitOnce, rsplitOnce_of_not_mem h]
    exact if_pos rfl
  | cons d front ih => rw [List.cons_append, rsplitOnce, ih]

theorem splitOnce_eq_none_iff {c : Char} {text : List Char} :
    splitOnce c text = none ↔ c ∉ text := by
  constructor
  · intro h hc
    obtain ⟨front, back, htext, hfront⟩ := List.eq_append_cons_of_mem hc
    rw [splitOnce_eq_some_iff.mpr ⟨htext, hfront⟩] at h
    cases h
  · intro hc
    rcases hsplit : splitOnce c text with _ | ⟨front, back⟩
    · rfl
    · rw [(splitOnce_eq_some_iff.mp hsplit).1] at hc
      exact absurd (List.mem_append_right _ List.mem_cons_self) hc

/-- What stands before the first `c`, or the whole text. -/
theorem splitOnce_fst (c : Char) (text : List Char) :
    ((splitOnce c text).map Prod.fst).getD text = text.takeWhile (· != c) := by
  rcases hsplit : splitOnce c text with _ | ⟨front, back⟩
  · have hnone := splitOnce_eq_none_iff.mp hsplit
    symm
    exact List.takeWhile_eq_self_iff.mpr fun d hd => bne_iff_ne.mpr fun h => hnone (h ▸ hd)
  · obtain ⟨htext, hfront⟩ := splitOnce_eq_some_iff.mp hsplit
    have hall : ∀ d ∈ front, (d != c) = true := fun d hd =>
      bne_iff_ne.mpr fun h => hfront (h ▸ hd)
    rw [Option.map_some, Option.getD_some, htext, List.takeWhile_append_of_pos hall,
      List.takeWhile_cons_of_neg (by simp), List.append_nil]

theorem takeWhile_append_cons (c : Char) (front back : List Char) :
    (front ++ c :: back).takeWhile (· != c) = front.takeWhile (· != c) := by
  induction front with
  | nil => exact List.takeWhile_cons_of_neg (by simp)
  | cons d front ih =>
    rw [List.cons_append, List.takeWhile_cons, List.takeWhile_cons, ih]

theorem stripSuffix_eq_some_iff {back text rest : List Char} :
    stripSuffix back text = some rest ↔ text = rest ++ back := by
  unfold stripSuffix
  constructor
  · intro h
    split at h
    · next hback =>
      obtain ⟨front, rfl⟩ := List.isSuffixOf_iff_suffix.mp hback
      rw [List.length_append, Nat.add_sub_cancel, List.take_left, Option.some.injEq] at h
      rw [h]
    · cases h
  · intro h
    subst h
    rw [if_pos (List.isSuffixOf_iff_suffix.mpr (List.suffix_append rest back)),
      List.length_append, Nat.add_sub_cancel, List.take_left]

theorem trimmed_trimmed (s : String) : trimmed (trimmed s) = trimmed s := by
  rw [trimmed, trimmed, String.toList_ofList, trim_trim]

theorem trimmed_eq_empty_iff (s : String) : trimmed s = "" ↔ isBlank s = true := by
  rw [trimmed, isBlank, decide_eq_true_iff, ← String.toList_inj, String.toList_ofList]
  rfl

theorem isBlank_iff {s : String} : isBlank s = true ↔ ∀ c ∈ s.toList, isWhitespace c = true := by
  rw [isBlank, decide_eq_true_iff, trim_eq_nil_iff]

/-- The pieces between separators are those of the standard library. -/
theorem splitAll_eq_splitOn (c : Char) (text : List Char) : splitAll c text = text.splitOn c := by
  induction text with
  | nil => rfl
  | cons d text ih =>
    rw [splitAll, ih, List.splitOn_cons_eq_if_modifyHead]
    by_cases hd : d = c
    · rw [if_pos hd, if_pos (beq_iff_eq.mpr hd)]
    · rw [if_neg hd, if_neg fun h => hd (beq_iff_eq.mp h)]
      rcases hsplit : text.splitOn c with _ | ⟨piece, pieces⟩
      · exact absurd hsplit (List.splitOn_ne_nil c text)
      · rfl

theorem splitAll_intercalate {c : Char} {pieces : List (List Char)} (hne : pieces ≠ [])
    (h : ∀ piece ∈ pieces, c ∉ piece) : splitAll c ([c].intercalate pieces) = pieces := by
  rw [splitAll_eq_splitOn]
  exact List.splitOn_intercalate c h hne

theorem not_mem_of_mem_splitAll {c : Char} {text piece : List Char} (h : piece ∈ splitAll c text) :
    c ∉ piece := by
  induction text generalizing piece with
  | nil =>
    rw [splitAll, List.mem_singleton] at h
    rw [h]
    exact List.not_mem_nil
  | cons d text ih =>
    rw [splitAll] at h
    by_cases hd : d = c
    · rw [if_pos hd] at h
      rcases List.mem_cons.mp h with h | h
      · rw [h]
        exact List.not_mem_nil
      · exact ih h
    · rw [if_neg hd] at h
      rcases hsplit : splitAll c text with _ | ⟨first, pieces⟩
      · rw [hsplit] at h
        rw [List.mem_singleton.mp h, List.mem_singleton]
        exact Ne.symm hd
      · rw [hsplit] at h ih
        rcases List.mem_cons.mp h with h | h
        · rw [h, List.mem_cons]
          exact not_or.mpr ⟨Ne.symm hd, ih List.mem_cons_self⟩
        · exact ih (List.mem_cons_of_mem _ h)

/-! Fields that are joined may hold the separator themselves. -/

theorem splitOn_intercalate_flatMap {c : Char} {fields : List (List Char)} (hne : fields ≠ []) :
    ([c].intercalate fields).splitOn c = fields.flatMap (·.splitOn c) := by
  induction fields with
  | nil => exact absurd rfl hne
  | cons field fields ih =>
    rcases fields with _ | ⟨next, rest⟩
    · simp
    · rw [List.intercalate_cons_cons, List.append_assoc, List.singleton_append,
        List.splitOn_append_cons_self, ih (by simp)]
      rfl

theorem length_le_flatMap_splitOn (c : Char) (fields : List (List Char)) :
    fields.length ≤ (fields.flatMap (·.splitOn c)).length := by
  induction fields with
  | nil => exact Nat.le_refl _
  | cons field fields ih =>
    have hpos : 0 < (field.splitOn c).length :=
      List.length_pos_iff.mpr (List.splitOn_ne_nil c field)
    rw [List.flatMap_cons, List.length_append, List.length_cons]
    omega

/-- As many pieces as fields: the pieces are the fields. -/
theorem flatMap_splitOn_eq_self {c : Char} {fields : List (List Char)}
    (h : (fields.flatMap (·.splitOn c)).length = fields.length) :
    fields.flatMap (·.splitOn c) = fields := by
  induction fields with
  | nil => rfl
  | cons field fields ih =>
    have hpos : 0 < (field.splitOn c).length :=
      List.length_pos_iff.mpr (List.splitOn_ne_nil c field)
    have hrest := length_le_flatMap_splitOn c fields
    rw [List.flatMap_cons, List.length_append, List.length_cons] at h
    obtain ⟨piece, hpiece⟩ := List.length_eq_one_iff.mp
      (show (field.splitOn c).length = 1 by omega)
    have hfield : [c].intercalate (field.splitOn c) = field := List.intercalate_splitOn c
    rw [hpiece, List.intercalate_singleton] at hfield
    rw [List.flatMap_cons, hpiece, hfield, ih (by omega)]
    rfl

theorem splitOn_inj {c : Char} {a b : List Char} (h : a.splitOn c = b.splitOn c) : a = b := by
  have ha : [c].intercalate (a.splitOn c) = a := List.intercalate_splitOn c
  rw [← ha, h, List.intercalate_splitOn c]

theorem parseDigits_lt {width n : Nat} {digits : List Char}
    (h : parseDigits width digits = some n) : n < 2 ^ width := by
  unfold parseDigits at h
  by_cases hdigits : digits ≠ [] ∧ digits.all Char.isDigit ∧ digitsValue digits < 2 ^ width
  · rw [if_pos hdigits] at h
    cases h
    exact hdigits.2.2
  · rw [if_neg hdigits] at h
    cases h

theorem parseUnsigned_lt {width n : Nat} {s : String} (h : parseUnsigned width s = some n) :
    n < 2 ^ width := by
  unfold parseUnsigned at h
  split at h
  · exact parseDigits_lt h
  · exact parseDigits_lt h

end Text
end IndieWorker
