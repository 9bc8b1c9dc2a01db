import IndieWorker.Lib.Backtracking
import IndieWorker.TypeScript.Validate

/-!
# The expressions of `FORMATS`

`FORMATS` of `typescript/src/validate.mjs`, as ECMAScript runs them: without the
`u` flag an expression goes over the code units of UTF-16, and with `^` and `$`
around it a match begins and ends with the text.  The expressions have ASCII
classes only, so that over characters they are the languages that the recognizers
of `json_schema.rs` decide.
-/

namespace IndieWorker
namespace TypeScript

open Validation Backtracking Computability

/-- The code units of a text. -/
def utf16 (text : List Char) : List ℕ :=
  text.flatMap fun c =>
    if c.toNat < 0x10000 then [c.toNat]
    else [0xD800 + (c.toNat - 0x10000) / 0x400, 0xDC00 + (c.toNat - 0x10000) % 0x400]

namespace FormatRegExp

/-- The unit lies in one of the ranges. -/
def inRanges (ranges : List (Char × Char)) (unit : ℕ) : Bool :=
  ranges.any fun range => decide (range.1.toNat ≤ unit) && decide (unit ≤ range.2.toNat)

def klass (ranges : List (Char × Char)) : Expr ℕ := .one (inRanges ranges)

def lit (c : Char) : Expr ℕ := klass [(c, c)]

/-- `[0-9a-fA-F]` -/
def hex : Expr ℕ := klass [('0', '9'), ('a', 'f'), ('A', 'F')]

/-- `\d` -/
def digit : Expr ℕ := klass [('0', '9')]

/-- `e{n}` -/
def exactly (n : ℕ) (e : Expr ℕ) : Expr ℕ := .rep e n (some 0)

/-- `^[0-9a-fA-F]{8}-[0-9a-fA-F]{4}-[0-9a-fA-F]{4}-[0-9a-fA-F]{4}-[0-9a-fA-F]{12}$` -/
def uuid : Expr ℕ :=
  .seqs [exactly 8 hex, lit '-', exactly 4 hex, lit '-', exactly 4 hex, lit '-', exactly 4 hex,
    lit '-', exactly 12 hex]

/-- `^\d{4}-\d{2}-\d{2}[Tt]\d{2}:\d{2}:\d{2}(\.\d+)?([Zz]|[+-]\d{2}:\d{2})$` -/
def dateTime : Expr ℕ :=
  .seqs [exactly 4 digit, lit '-', exactly 2 digit, lit '-', exactly 2 digit,
    klass [('T', 'T'), ('t', 't')], exactly 2 digit, lit ':', exactly 2 digit, lit ':',
    exactly 2 digit, .rep (.seqs [lit '.', .rep digit 1 none]) 0 (some 1),
    .alt (klass [('Z', 'Z'), ('z', 'z')])
      (.seqs [klass [('+', '+'), ('-', '-')], exactly 2 digit, lit ':', exactly 2 digit])]

/-- `^\d{4}-\d{2}-\d{2}$` -/
def date : Expr ℕ :=
  .seqs [exactly 4 digit, lit '-', exactly 2 digit, lit '-', exactly 2 digit]

/-- `^[A-Za-z0-9+/]*={0,2}$` -/
def byte : Expr ℕ :=
  .seqs [.rep (klass [('A', 'Z'), ('a', 'z'), ('0', '9'), ('+', '+'), ('/', '/')]) 0 none,
    .rep (lit '=') 0 (some 2)]

end FormatRegExp

/-! ## From code units to characters -/

/-- A text of ASCII characters is its own sequence of units. -/
theorem utf16_of_ascii {text : List Char} (h : ∀ c ∈ text, c.toNat < 128) :
    utf16 text = text.map Char.toNat := by
  induction text with
  | nil => rfl
  | cons c text ih =>
    obtain ⟨hc, htext⟩ := List.forall_mem_cons.mp h
    rw [utf16, List.flatMap_cons, if_pos (by omega)]
    exact congrArg _ (ih htext)

/-- Every other text has a unit outside ASCII. -/
theorem exists_unit_of_not_ascii {text : List Char} {c : Char} (hc : c ∈ text)
    (hlarge : 128 ≤ c.toNat) : ∃ unit ∈ utf16 text, 128 ≤ unit := by
  by_cases hlow : c.toNat < 0x10000
  · refine ⟨c.toNat, List.mem_flatMap.mpr ⟨c, hc, ?_⟩, hlarge⟩
    rw [if_pos hlow]
    exact List.mem_singleton_self _
  · refine ⟨0xD800 + (c.toNat - 0x10000) / 0x400, List.mem_flatMap.mpr ⟨c, hc, ?_⟩, by omega⟩
    rw [if_neg hlow]
    exact List.mem_cons_self

/-- An expression with ASCII classes reads units as it reads characters. -/
theorem test_utf16 {e : Expr ℕ} (he : e.Within (· < 128)) (text : List Char) :
    e.test (utf16 text) = true ↔ text ∈ (e.comap Char.toNat).language := by
  by_cases hascii : ∀ c ∈ text, c.toNat < 128
  · rw [utf16_of_ascii hascii, Expr.test_map, Expr.test_iff]
  · rw [not_forall] at hascii
    obtain ⟨c, hc⟩ := hascii
    rw [Classical.not_imp, not_lt] at hc
    refine iff_of_false ?_ ?_
    · intro htest
      obtain ⟨unit, hmem, hunit⟩ := exists_unit_of_not_ascii hc.1 hc.2
      exact absurd (Expr.of_mem_language he _ (Expr.test_iff.mp htest) unit hmem)
        (not_lt.mpr hunit)
    · intro hmem
      exact absurd (Expr.of_mem_language (Expr.within_comap he) _ hmem c hc.1)
        (not_lt.mpr hc.2)

namespace FormatRegExp

theorem within_klass {ranges : List (Char × Char)} (h : ∀ range ∈ ranges, range.2.toNat < 128) :
    (klass ranges).Within (· < 128) := by
  intro unit hunit
  obtain ⟨range, hrange, hin⟩ := List.any_eq_true.mp hunit
  have hle : unit ≤ range.2.toNat := of_decide_eq_true (Bool.and_eq_true_iff.mp hin).2
  exact hle.trans_lt (h range hrange)

theorem within_lit {c : Char} (h : c.toNat < 128) : (lit c).Within (· < 128) :=
  within_klass (by simpa using h)

theorem within_hex : hex.Within (· < 128) := within_klass (by decide)

theorem within_digit : digit.Within (· < 128) := within_klass (by decide)

theorem within_dash : (lit '-').Within (· < 128) := within_lit (by decide)

theorem within_colon : (lit ':').Within (· < 128) := within_lit (by decide)

/-! The classes of the expressions are ASCII, term by term. -/

theorem uuid_within : uuid.Within (· < 128) :=
  ⟨within_hex, within_dash, within_hex, within_dash, within_hex, within_dash, within_hex,
    within_dash, within_hex, trivial⟩

theorem date_within : date.Within (· < 128) :=
  ⟨within_digit, within_dash, within_digit, within_dash, within_digit, trivial⟩

theorem dateTime_within : dateTime.Within (· < 128) :=
  ⟨within_digit, within_dash, within_digit, within_dash, within_digit, within_klass (by decide),
    within_digit, within_colon, within_digit, within_colon, within_digit,
    ⟨within_lit (by decide), within_digit, trivial⟩,
    ⟨within_klass (by decide), within_klass (by decide), within_digit, within_colon,
      within_digit, trivial⟩,
    trivial⟩

theorem byte_within : byte.Within (· < 128) :=
  ⟨within_klass (by decide), within_lit (by decide), trivial⟩

/-- The words of an expression, as texts. -/
def texts (e : Expr ℕ) : Language Char := (e.comap Char.toNat).language

theorem texts_seqs (e : Expr ℕ) (es : List (Expr ℕ)) :
    texts (.seqs (e :: es)) = texts e * texts (.seqs es) := rfl

theorem texts_nil : texts (.seqs []) = 1 := rfl

theorem texts_exactly (n : ℕ) (e : Expr ℕ) : texts (exactly n e) = texts e ^ n := mul_one _

theorem texts_klass {ranges : List (Char × Char)} {p : Char → Bool}
    (h : ∀ c : Char, inRanges ranges c.toNat = p c) : texts (klass ranges) = Words.one p := by
  show Words.one (fun c : Char => inRanges ranges c.toNat) = _
  rw [funext h]

/-- A range of units is that range of characters. -/
theorem range_toNat (lo hi c : Char) :
    (decide (lo.toNat ≤ c.toNat) && decide (c.toNat ≤ hi.toNat)) =
      (decide (lo ≤ c) && decide (c ≤ hi)) := rfl

theorem single_range (x c : Char) : (decide (x ≤ c) && decide (c ≤ x)) = (c == x) := by
  rw [Bool.eq_iff_iff, Bool.and_eq_true, decide_eq_true_eq, decide_eq_true_eq, beq_iff_eq]
  constructor
  · exact fun h => Char.le_antisymm h.2 h.1
  · intro h
    subst h
    exact ⟨Char.le_refl c, Char.le_refl c⟩

theorem isDigit_eq (c : Char) : c.isDigit = (decide ('0' ≤ c) && decide (c ≤ '9')) := rfl

theorem texts_hex : texts hex = FORMATS.hex :=
  texts_klass fun c => by
    simp only [inRanges, List.any_cons, List.any_nil, range_toNat, isHexDigit, isDigit_eq,
      Bool.or_false, Bool.or_assoc]

theorem texts_digit : texts digit = FORMATS.digit :=
  texts_klass fun c => by
    simp only [inRanges, List.any_cons, List.any_nil, range_toNat, isDigit_eq, Bool.or_false]

theorem texts_lit (x : Char) : texts (lit x) = FORMATS.lit x :=
  texts_klass fun c => by
    simp only [inRanges, List.any_cons, List.any_nil, range_toNat, single_range, Bool.or_false]

theorem texts_uuid : texts uuid = FORMATS.uuid := by
  simp only [uuid, texts_seqs, texts_nil, texts_exactly, texts_hex, texts_lit, mul_one,
    FORMATS.uuid, mul_assoc]

theorem texts_date : texts date = FORMATS.date := by
  simp only [date, texts_seqs, texts_nil, texts_exactly, texts_digit, texts_lit, mul_one,
    FORMATS.date, mul_assoc]

theorem texts_dateTime : texts dateTime = FORMATS.dateTime := by
  have hpair : ∀ x y : Char, texts (klass [(x, x), (y, y)]) =
      Words.one fun c => c == x || c == y := by
    intro x y
    apply texts_klass
    intro c
    simp only [inRanges, List.any_cons, List.any_nil, range_toNat, single_range, Bool.or_false]
  have hfraction : texts (.rep (.seqs [lit '.', .rep digit 1 none]) 0 (some 1)) =
      1 + FORMATS.lit '.' * (FORMATS.digit * FORMATS.digit∗) := by
    show texts (.seqs [lit '.', .rep digit 1 none]) ^ 0 *
      (1 + texts (.seqs [lit '.', .rep digit 1 none])) ^ 1 = _
    have hdigits : texts (.rep digit 1 none) = FORMATS.digit * FORMATS.digit∗ := by
      show texts digit ^ 1 * (texts digit)∗ = _
      rw [texts_digit, pow_one]
    rw [pow_zero, one_mul, pow_one, texts_seqs, texts_seqs, texts_nil, texts_lit, hdigits, mul_one]
  have hoffset : texts (.alt (klass [('Z', 'Z'), ('z', 'z')])
      (.seqs [klass [('+', '+'), ('-', '-')], exactly 2 digit, lit ':', exactly 2 digit])) =
      FORMATS.offset := by
    show texts _ + texts _ = _
    simp only [hpair, texts_seqs, texts_nil, texts_exactly, texts_digit, texts_lit, mul_one,
      FORMATS.offset, mul_assoc]
  simp only [dateTime, texts_seqs, texts_nil, texts_exactly, texts_digit, texts_lit, hpair,
    hfraction, hoffset, mul_one, FORMATS.dateTime, FORMATS.date, FORMATS.clock, mul_assoc]

theorem texts_byte : texts byte = FORMATS.byte := by
  have hbody : texts (klass [('A', 'Z'), ('a', 'z'), ('0', '9'), ('+', '+'), ('/', '/')]) =
      Words.one fun c => c.isAlphanum || c == '+' || c == '/' := by
    apply texts_klass
    intro c
    have hupper : c.isUpper = (decide ('A' ≤ c) && decide (c ≤ 'Z')) := Bool.decide_and _ _
    have halnum : c.isAlphanum = (decide ('A' ≤ c) && decide (c ≤ 'Z') ||
        (decide ('a' ≤ c) && decide (c ≤ 'z')) || (decide ('0' ≤ c) && decide (c ≤ '9'))) := by
      rw [← hupper]
      rfl
    simp only [inRanges, List.any_cons, List.any_nil, range_toNat, single_range, halnum,
      Bool.or_false, Bool.or_assoc]
  have hpadding : ∀ l : Language Char, (1 + l) ^ 2 = 1 + l + l ^ 2 := by
    intro l
    rw [pow_two, add_mul, one_mul, mul_add, mul_one, ← pow_two, ← add_assoc, add_assoc 1 l l,
      add_idem]
  show texts (.rep (klass _) 0 none) * (texts (.rep (lit '=') 0 (some 2)) * texts (.seqs [])) = _
  have hrep : texts (.rep (lit '=') 0 (some 2)) = (1 + FORMATS.lit '=') ^ 2 := by
    show texts (lit '=') ^ 0 * (1 + texts (lit '=')) ^ 2 = _
    rw [pow_zero, one_mul, texts_lit]
  have hstar : texts (.rep (klass [('A', 'Z'), ('a', 'z'), ('0', '9'), ('+', '+'), ('/', '/')]) 0
      none) = (Words.one fun c : Char => c.isAlphanum || c == '+' || c == '/')∗ := by
    show texts (klass _) ^ 0 * (texts (klass _))∗ = _
    rw [pow_zero, one_mul, hbody]
  rw [hstar, hrep, hpadding, texts_nil, mul_one]
  rfl

/-- The expression under a name. -/
def lookup (name : String) : Option (Expr ℕ) :=
  if name = "uuid" then some uuid
  else if name = "date-time" then some dateTime
  else if name = "date" then some date
  else if name = "byte" then some byte
  else none

theorem test_uuid (text : List Char) : uuid.test (utf16 text) = true ↔ text ∈ FORMATS.uuid := by
  rw [test_utf16 uuid_within, ← texts_uuid]
  rfl

theorem test_dateTime (text : List Char) :
    dateTime.test (utf16 text) = true ↔ text ∈ FORMATS.dateTime := by
  rw [test_utf16 dateTime_within, ← texts_dateTime]
  rfl

theorem test_date (text : List Char) : date.test (utf16 text) = true ↔ text ∈ FORMATS.date := by
  rw [test_utf16 date_within, ← texts_date]
  rfl

theorem test_byte (text : List Char) : byte.test (utf16 text) = true ↔ text ∈ FORMATS.byte := by
  rw [test_utf16 byte_within, ← texts_byte]
  rfl

end FormatRegExp

/-- The test under a name is that of the expression under it. -/
theorem formatTest_eq_lookup (name : String) :
    formatTest name = (FormatRegExp.lookup name).map fun e text => e.test (utf16 text.toList) := by
  have hdecide : ∀ {l : Language Char} [∀ text : List Char, Decidable (text ∈ l)] {e : Expr ℕ},
      (∀ text, e.test (utf16 text) = true ↔ text ∈ l) →
      (fun text : String => decide (text.toList ∈ l)) = fun text => e.test (utf16 text.toList) := by
    intro l _ e h
    funext text
    rw [Bool.eq_iff_iff, decide_eq_true_eq, h]
  unfold formatTest FormatRegExp.lookup
  split
  · exact congrArg some (hdecide FormatRegExp.test_uuid)
  · split
    · exact congrArg some (hdecide FormatRegExp.test_dateTime)
    · split
      · exact congrArg some (hdecide FormatRegExp.test_date)
      · split
        · exact congrArg some (hdecide FormatRegExp.test_byte)
        · rfl

/-- The recognizers accept what the expressions of `FORMATS` match. -/
theorem recognizers_match_formats (text : String) :
    (isUuid text.toList = true ↔ FormatRegExp.uuid.test (utf16 text.toList) = true) ∧
      (isDate text.toList = true ↔ FormatRegExp.date.test (utf16 text.toList) = true) ∧
      (isDateTime text.toList = true ↔
        FormatRegExp.dateTime.test (utf16 text.toList) = true) ∧
      (isBase64 text.toList = true ↔ FormatRegExp.byte.test (utf16 text.toList) = true) := by
  rw [FormatRegExp.test_uuid, FormatRegExp.test_date, FormatRegExp.test_dateTime,
    FormatRegExp.test_byte]
  exact ⟨isUuid_iff, isDate_iff, isDateTime_iff, isBase64_iff⟩

example : FormatRegExp.date.test (utf16 "2026-02-30".toList) = true := by decide +kernel

end TypeScript
end IndieWorker
