import IndieWorker.Lib.Words
import Mathlib.Algebra.Ring.Nat
import Mathlib.Data.List.DropRight
import Mathlib.Data.List.Induction

/-!
# The format recognizers

`is_uuid`, `is_date`, `is_date_time` and `is_base64` of
`src/validation/json_schema.rs`, over the characters of the text, and the
languages that `FORMATS` of `typescript/src/validate.mjs` writes as regular
expressions.  Each recognizer decides its language.
-/

namespace IndieWorker
namespace Validation

open Words Computability

/-! ## The recognizers -/

/-- `str::len`: bytes of UTF-8. -/
def utf8Len (text : List Char) : Nat := (text.map Char.utf8Size).sum

def isHexDigit (c : Char) : Bool :=
  c.isDigit || ('a' ≤ c && c ≤ 'f') || ('A' ≤ c && c ≤ 'F')

/-- The loop of `is_uuid` over the expected lengths. -/
def hexGroups : List Nat → List (List Char) → Bool
  | [], parts => parts.isEmpty
  | _ :: _, [] => false
  | expected :: groups, part :: parts =>
    if utf8Len part ≠ expected ∨ ¬ part.all isHexDigit then false else hexGroups groups parts

def isUuid (text : List Char) : Bool := hexGroups [8, 4, 4, 4, 12] (text.splitOn '-')

def digits (text : List Char) (count : Nat) : Bool :=
  utf8Len text == count && text.all Char.isDigit

/-- The parts of the text between separators are digits, one part for each count. -/
def digitFields (sep : Char) (counts : List Nat) (text : List Char) : Bool :=
  let parts := text.splitOn sep
  counts.length == parts.length && (counts.zip parts).all fun (count, part) => digits part count

def isDate (text : List Char) : Bool := digitFields '-' [4, 2, 2] text

def isTimeOffset (text : List Char) : Bool :=
  if text = ['Z'] ∨ text = ['z'] then true
  else
    match text with
    | c :: rest => (c == '+' || c == '-') && digitFields ':' [2, 2] rest
    | [] => false

/-- The text before the first character that satisfies `p`, and the text from
it on, if there is one. -/
def splitFirst (p : Char → Bool) (text : List Char) : Option (List Char × List Char) :=
  match text.dropWhile (!p ·) with
  | [] => none
  | c :: rest => some (text.takeWhile (!p ·), c :: rest)

/-- The text before the last `c`, and the text from it on. -/
def splitLast (c : Char) (text : List Char) : Option (List Char × List Char) :=
  match text.rdropWhile (· != c) with
  | [] => none
  | front => some (front.dropLast, c :: text.rtakeWhile (· != c))

/-- The clock and the offset of the time half: the offset starts at a `Z`, a `z`
or a `+`, else at the last `-` behind the first character. -/
def clockAndOffset (rest : List Char) : Option (List Char × List Char) :=
  match splitFirst (fun c => c == 'Z' || c == 'z' || c == '+') rest with
  | some split => some split
  | none => (splitLast '-' rest).filter fun split => decide (split.1 ≠ [])

/-- Hours, minutes and seconds with an optional fraction. -/
def isClock (clock : List Char) : Bool :=
  match splitFirst (· == '.') clock with
  | none => digitFields ':' [2, 2, 2] clock
  | some (hms, dotted) =>
    let fraction := dotted.tail
    !fraction.isEmpty && fraction.all Char.isDigit && digitFields ':' [2, 2, 2] hms

def isDateTime (text : List Char) : Bool :=
  match splitFirst (fun c => c == 'T' || c == 't') text with
  | some (date, _ :: rest) =>
    isDate date &&
      match clockAndOffset rest with
      | some (clock, offset) => isClock clock && isTimeOffset offset
      | none => false
  | _ => false

def isBase64 (text : List Char) : Bool :=
  let body := text.rdropWhile (· == '=')
  decide (utf8Len text - utf8Len body ≤ 2) &&
    body.all fun c => c.isAlphanum || c == '+' || c == '/'

/-! ## The languages -/

namespace FORMATS

def digit : Language Char := one Char.isDigit

def hex : Language Char := one isHexDigit

def lit (c : Char) : Language Char := one (· == c)

def uuid : Language Char :=
  hex ^ 8 * lit '-' * hex ^ 4 * lit '-' * hex ^ 4 * lit '-' * hex ^ 4 * lit '-' * hex ^ 12

def date : Language Char := digit ^ 4 * lit '-' * digit ^ 2 * lit '-' * digit ^ 2

def clock : Language Char :=
  digit ^ 2 * lit ':' * digit ^ 2 * lit ':' * digit ^ 2 * (1 + lit '.' * (digit * digit∗))

def offset : Language Char :=
  one (fun c => c == 'Z' || c == 'z') +
    one (fun c => c == '+' || c == '-') * (digit ^ 2 * lit ':' * digit ^ 2)

def dateTime : Language Char :=
  date * (one (fun c => c == 'T' || c == 't') * (clock * offset))

def byte : Language Char :=
  (one fun c => c.isAlphanum || c == '+' || c == '/')∗ * (1 + lit '=' + lit '=' ^ 2)

end FORMATS

/-! ## Deciding the languages -/

theorem utf8Len_of_ascii {text : List Char} (h : ∀ c ∈ text, c.toNat < 128) :
    utf8Len text = text.length := by
  induction text with
  | nil => rfl
  | cons c text ih =>
    obtain ⟨hc, htext⟩ := List.forall_mem_cons.mp h
    have hsize : c.utf8Size = 1 :=
      Char.utf8Size_eq_one_iff.mpr (UInt32.le_iff_toNat_le.mpr (Nat.le_of_lt_succ hc))
    rw [utf8Len, List.map_cons, List.sum_cons, hsize, List.length_cons, Nat.add_comm]
    exact congrArg (· + 1) (ih htext)

theorem utf8Len_append (a b : List Char) : utf8Len (a ++ b) = utf8Len a + utf8Len b := by
  simp [utf8Len]

theorem isDigit_ascii {c : Char} (h : c.isDigit = true) : c.toNat < 128 :=
  (Char.isDigit_iff_toNat.mp h).2.trans_lt (by decide)

theorem isHexDigit_ascii {c : Char} (h : isHexDigit c = true) : c.toNat < 128 := by
  simp only [isHexDigit, Bool.or_eq_true, Bool.and_eq_true, decide_eq_true_eq] at h
  rcases h with (h | h) | h
  · exact isDigit_ascii h
  · exact (UInt32.le_iff_toNat_le.mp h.2).trans_lt (by decide)
  · exact (UInt32.le_iff_toNat_le.mp h.2).trans_lt (by decide)

theorem digits_iff {text : List Char} {count : Nat} :
    digits text count = true ↔ text ∈ FORMATS.digit ^ count := by
  rw [digits, Bool.and_eq_true, beq_iff_eq, List.all_eq_true, FORMATS.digit, mem_one_pow]
  refine and_congr_left fun hall => ?_
  rw [utf8Len_of_ascii fun c hc => isDigit_ascii (hall c hc)]

theorem hexGroups_iff {groups : List Nat} {parts : List (List Char)} :
    hexGroups groups parts = true ↔
      List.Forall₂ (fun n part => part ∈ FORMATS.hex ^ n) groups parts := by
  induction groups generalizing parts with
  | nil => cases parts <;> simp [hexGroups]
  | cons n groups ih =>
    cases parts with
    | nil => simp [hexGroups]
    | cons part parts =>
      have hpart : ¬ (utf8Len part ≠ n ∨ ¬ part.all isHexDigit = true) ↔
          part ∈ FORMATS.hex ^ n := by
        rw [not_or, not_not, not_not, List.all_eq_true, FORMATS.hex, mem_one_pow]
        refine and_congr_left fun hall => ?_
        rw [utf8Len_of_ascii fun c hc => isHexDigit_ascii (hall c hc)]
      rw [List.forall₂_cons, ← hpart, ← ih, hexGroups]
      split
      · next h =>
        exact ⟨fun hfalse => absurd hfalse Bool.false_ne_true, fun hand => absurd h hand.1⟩
      · next h => exact ⟨fun hgroups => ⟨h, hgroups⟩, fun hand => hand.2⟩

theorem isUuid_iff {text : List Char} : isUuid text = true ↔ text ∈ FORMATS.uuid := by
  have hfields : FORMATS.uuid = fields isHexDigit '-' [8, 4, 4, 4, 12] := by
    simp only [FORMATS.uuid, FORMATS.hex, FORMATS.lit, fields, mul_assoc]
  rw [isUuid, hexGroups_iff, hfields, mem_fields_iff (by decide)]
  rfl

theorem digitFields_iff {sep : Char} (hsep : sep.isDigit = false) {counts : List Nat}
    {text : List Char} :
    digitFields sep counts text = true ↔ text ∈ fields Char.isDigit sep counts := by
  rw [mem_fields_iff hsep, List.forall₂_iff_zip, digitFields]
  simp only [Bool.and_eq_true, beq_iff_eq, List.all_eq_true, Prod.forall]
  refine and_congr_right fun _ => forall₂_congr fun count part => ?_
  rw [digits_iff]
  rfl

theorem isDate_iff {text : List Char} : isDate text = true ↔ text ∈ FORMATS.date := by
  have hfields : FORMATS.date = fields Char.isDigit '-' [4, 2, 2] := by
    simp only [FORMATS.date, FORMATS.digit, FORMATS.lit, fields, mul_assoc]
  rw [isDate, digitFields_iff (by decide), hfields]

theorem isTimeOffset_iff {text : List Char} :
    isTimeOffset text = true ↔ text ∈ FORMATS.offset := by
  have hfields : FORMATS.digit ^ 2 * FORMATS.lit ':' * FORMATS.digit ^ 2 =
      fields Char.isDigit ':' [2, 2] := rfl
  rw [FORMATS.offset, hfields, Language.mem_add, mem_one, mem_one_mul, isTimeOffset.eq_def]
  split
  · next hz =>
    refine iff_of_true rfl (Or.inl ?_)
    rcases hz with rfl | rfl
    · exact ⟨'Z', rfl, rfl⟩
    · exact ⟨'z', rfl, rfl⟩
  · next hz =>
    have hnot : ¬ ∃ c, (c == 'Z' || c == 'z') = true ∧ text = [c] := by
      intro hex
      obtain ⟨c, hc, rfl⟩ := hex
      simp only [Bool.or_eq_true, beq_iff_eq] at hc
      rcases hc with rfl | rfl
      · exact hz (Or.inl rfl)
      · exact hz (Or.inr rfl)
    rw [or_iff_right hnot]
    cases text with
    | nil => simp
    | cons c rest =>
      dsimp only
      rw [Bool.and_eq_true, digitFields_iff (by decide)]
      constructor
      · exact fun h => ⟨c, rest, rfl, h⟩
      · intro hex
        obtain ⟨_, _, heq, h⟩ := hex
        cases heq
        exact h

theorem splitFirst_eq_none_iff {p : Char → Bool} {text : List Char} :
    splitFirst p text = none ↔ ∀ x ∈ text, p x = false := by
  unfold splitFirst
  split
  · next heq =>
    refine iff_of_true rfl fun x hx => ?_
    have := List.dropWhile_eq_nil_iff.mp heq x hx
    simpa using this
  · next c rest heq =>
    refine iff_of_false (by simp) fun hall => ?_
    have hnil : text.dropWhile (!p ·) = [] :=
      List.dropWhile_eq_nil_iff.mpr fun x hx => by simp [hall x hx]
    rw [hnil] at heq
    cases heq

theorem splitFirst_eq_some_iff {p : Char → Bool} {text front back : List Char} :
    splitFirst p text = some (front, back) ↔
      text = front ++ back ∧ (∀ x ∈ front, p x = false) ∧
        ∃ c rest, back = c :: rest ∧ p c = true := by
  constructor
  · intro h
    unfold splitFirst at h
    split at h
    · cases h
    · next c rest heq =>
      cases h
      refine ⟨?_, fun x hx => ?_, c, rest, rfl, ?_⟩
      · rw [← heq, List.takeWhile_append_dropWhile]
      · simpa using List.mem_takeWhile_imp hx
      · have := List.head?_dropWhile_not (!p ·) text
        rw [heq] at this
        simpa using this
  · intro hand
    obtain ⟨rfl, hfront, c, rest, rfl, hc⟩ := hand
    have hnot : ∀ x ∈ front, (!p x) = true := fun x hx => by simp [hfront x hx]
    have hdrop : (front ++ c :: rest).dropWhile (!p ·) = c :: rest := by
      rw [List.dropWhile_append_of_pos hnot, List.dropWhile_cons_of_neg (by simp [hc])]
    have htake : (front ++ c :: rest).takeWhile (!p ·) = front := by
      rw [List.takeWhile_append_of_pos hnot, List.takeWhile_cons_of_neg (by simp [hc]),
        List.append_nil]
    unfold splitFirst
    rw [hdrop, htake]

theorem splitLast_eq_some {c : Char} {text front back : List Char}
    (h : splitLast c text = some (front, back)) : text = front ++ back := by
  unfold splitLast at h
  split at h
  · cases h
  · next hne =>
    cases h
    have hlast : (text.rdropWhile (· != c)).getLast hne = c := by
      simpa using List.rdropWhile_last_not (· != c) text hne
    conv_lhs => rw [← List.rdropWhile_append_rtakeWhile (p := (· != c)) (l := text)]
    rw [← List.dropLast_append_getLast hne, hlast, List.append_assoc]
    simp

theorem splitLast_append {c : Char} {front rest : List Char} (hrest : c ∉ rest) :
    splitLast c (front ++ c :: rest) = some (front, c :: rest) := by
  have hdrop : (front ++ c :: rest).rdropWhile (· != c) = front ++ [c] := by
    induction rest using List.reverseRecOn with
    | nil => exact List.rdropWhile_concat_neg _ _ _ (by simp)
    | append_singleton rest x ih =>
      rw [← List.cons_append, ← List.append_assoc, List.rdropWhile_concat_pos]
      · exact ih fun h => hrest (List.mem_append_left _ h)
      · simpa using fun h : x = c => hrest (by simp [h])
  have htake : (front ++ c :: rest).rtakeWhile (· != c) = rest := by
    have happ := List.rdropWhile_append_rtakeWhile (p := (· != c)) (l := front ++ c :: rest)
    rw [hdrop, List.append_assoc] at happ
    exact (List.cons.inj (List.append_cancel_left happ)).2
  unfold splitLast
  rw [hdrop, htake]
  simp

theorem isClock_iff {text : List Char} : isClock text = true ↔ text ∈ FORMATS.clock := by
  have hfields : FORMATS.clock = fields Char.isDigit ':' [2, 2, 2] *
      (1 + FORMATS.lit '.' * (FORMATS.digit * FORMATS.digit∗)) := by
    simp only [FORMATS.clock, FORMATS.digit, FORMATS.lit, fields, mul_assoc]
  have hfraction : ∀ fraction, (!fraction.isEmpty && fraction.all Char.isDigit) = true ↔
      fraction ∈ FORMATS.digit * FORMATS.digit∗ := by
    intro fraction
    rw [FORMATS.digit, mem_one_mul]
    cases fraction with
    | nil => simp
    | cons c fraction =>
      simp only [List.isEmpty_cons, Bool.not_false, Bool.true_and, List.all_cons, Bool.and_eq_true]
      constructor
      · exact fun h => ⟨c, fraction, rfl, h.1, mem_one_kstar.mpr (List.all_eq_true.mp h.2)⟩
      · intro hex
        obtain ⟨_, _, heq, hc, hall⟩ := hex
        cases heq
        exact ⟨hc, List.all_eq_true.mpr (mem_one_kstar.mp hall)⟩
  have hsep : Char.isDigit ':' = false := by decide
  rw [hfields, Language.mem_mul]
  constructor
  · intro h
    unfold isClock at h
    split at h
    · exact ⟨text, (digitFields_iff hsep).mp h, [], Or.inl rfl, List.append_nil text⟩
    · next hms dotted hsome =>
      obtain ⟨rfl, -, c, fraction, rfl, hc⟩ := splitFirst_eq_some_iff.mp hsome
      obtain ⟨hfrac, hhms⟩ := Bool.and_eq_true_iff.mp h
      refine ⟨hms, (digitFields_iff hsep).mp hhms, c :: fraction, Or.inr ?_, rfl⟩
      exact mem_one_mul.mpr ⟨c, fraction, rfl, hc, (hfraction fraction).mp hfrac⟩
  · intro hand
    obtain ⟨hms, hhms, tail, htail, rfl⟩ := hand
    have hdot : ∀ x ∈ hms, (x == '.') = false := by
      intro x hx
      rcases of_mem_fields hhms x hx with hx | rfl
      · exact beq_false_of_ne fun h => absurd (h ▸ hx) (by decide)
      · rfl
    unfold isClock
    rcases htail with htail | htail
    · rw [show tail = [] from htail, List.append_nil, splitFirst_eq_none_iff.mpr hdot]
      exact (digitFields_iff hsep).mpr hhms
    · obtain ⟨c, fraction, rfl, hc, hfrac⟩ := mem_one_mul.mp htail
      rw [splitFirst_eq_some_iff.mpr ⟨rfl, hdot, c, fraction, rfl, hc⟩]
      exact Bool.and_eq_true_iff.mpr
        ⟨(hfraction fraction).mpr hfrac, (digitFields_iff hsep).mpr hhms⟩

theorem isBase64_iff {text : List Char} : isBase64 text = true ↔ text ∈ FORMATS.byte := by
  have hpad : ∀ tail : List Char, tail ∈ 1 + FORMATS.lit '=' + FORMATS.lit '=' ^ 2 ↔
      tail.length ≤ 2 ∧ ∀ c ∈ tail, (c == '=') = true := by
    intro tail
    have hpow : (1 + FORMATS.lit '=' + FORMATS.lit '=' ^ 2 : Language Char) =
        one (· == '=') ^ 0 + one (· == '=') ^ 1 + one (· == '=') ^ 2 := by
      rw [pow_zero, pow_one]
      rfl
    rw [hpow, Language.mem_add, Language.mem_add, mem_one_pow, mem_one_pow, mem_one_pow]
    constructor
    · intro hor
      rcases hor with (⟨hlen, hall⟩ | ⟨hlen, hall⟩) | ⟨hlen, hall⟩
      · exact ⟨by omega, hall⟩
      · exact ⟨by omega, hall⟩
      · exact ⟨by omega, hall⟩
    · intro hand
      obtain ⟨hlen, hall⟩ := hand
      rcases show tail.length = 0 ∨ tail.length = 1 ∨ tail.length = 2 by omega with h | h | h
      · exact Or.inl (Or.inl ⟨h, hall⟩)
      · exact Or.inl (Or.inr ⟨h, hall⟩)
      · exact Or.inr ⟨h, hall⟩
  have hutf8 : ∀ body tail : List Char, (∀ c ∈ tail, (c == '=') = true) →
      utf8Len (body ++ tail) - utf8Len body = tail.length := by
    intro body tail hall
    have htail : utf8Len tail = tail.length :=
      utf8Len_of_ascii fun c hc => by rw [eq_of_beq (hall c hc)]; decide
    rw [← htail, utf8Len_append, Nat.add_sub_cancel_left]
  rw [FORMATS.byte, Language.mem_mul]
  constructor
  · intro h
    obtain ⟨hlen, hbody⟩ := Bool.and_eq_true_iff.mp h
    have hall : ∀ c ∈ text.rtakeWhile (· == '='), (c == '=') = true :=
      fun c hc => List.mem_rtakeWhile_imp (p := (· == '=')) hc
    have happ : text.rdropWhile (· == '=') ++ text.rtakeWhile (· == '=') = text :=
      List.rdropWhile_append_rtakeWhile
    refine ⟨_, mem_one_kstar.mpr (List.all_eq_true.mp hbody), _, (hpad _).mpr ⟨?_, hall⟩, happ⟩
    rw [← hutf8 (text.rdropWhile (· == '=')) _ hall, happ]
    exact of_decide_eq_true hlen
  · intro hex
    obtain ⟨body, hbody, tail, htail, rfl⟩ := hex
    obtain ⟨hlen, hall⟩ := (hpad tail).mp htail
    have hcls := mem_one_kstar.mp hbody
    have hdrop : (body ++ tail).rdropWhile (· == '=') = body := by
      rw [List.rdropWhile, List.reverse_append, List.dropWhile_append_of_pos
        fun c hc => hall c (List.mem_reverse.mp hc)]
      refine List.rdropWhile_eq_self_iff.mpr fun hne hlast => ?_
      have := hcls _ (List.getLast_mem hne)
      rw [eq_of_beq hlast] at this
      exact absurd this (by decide)
    unfold isBase64
    dsimp only
    rw [hdrop, hutf8 body tail hall]
    exact Bool.and_eq_true_iff.mpr ⟨decide_eq_true hlen, List.all_eq_true.mpr hcls⟩

/-- A clock is made of digits, colons and a dot, and starts with a digit. -/
theorem FORMATS.of_mem_clock {text : List Char} (h : text ∈ FORMATS.clock) :
    text ≠ [] ∧ ∀ c ∈ text, c.isDigit = true ∨ c = ':' ∨ c = '.' := by
  have hfields : FORMATS.clock = fields Char.isDigit ':' [2, 2, 2] *
      (1 + FORMATS.lit '.' * (FORMATS.digit * FORMATS.digit∗)) := by
    simp only [FORMATS.clock, FORMATS.digit, FORMATS.lit, fields, mul_assoc]
  rw [hfields, Language.mem_mul] at h
  obtain ⟨hms, hhms, tail, htail, rfl⟩ := h
  constructor
  · intro hnil
    rw [(List.append_eq_nil_iff.mp hnil).1, mem_fields_iff (by decide)] at hhms
    obtain ⟨part, rest, hpart, hrest, heq⟩ := List.forall₂_cons_left_iff.mp hhms
    cases heq
    cases hrest
  · intro c hc
    rcases List.mem_append.mp hc with hc | hc
    · exact (of_mem_fields hhms c hc).imp_right Or.inl
    · rcases htail with htail | htail
      · rw [show tail = [] from htail] at hc
        cases hc
      · obtain ⟨d, fraction, rfl, hd, hfrac⟩ := mem_one_mul.mp htail
        rcases List.mem_cons.mp hc with rfl | hc
        · exact Or.inr (Or.inr (eq_of_beq hd))
        · obtain ⟨e, rest, rfl, he, hrest⟩ := mem_one_mul.mp hfrac
          rcases List.mem_cons.mp hc with rfl | hc
          · exact Or.inl he
          · exact Or.inl (mem_one_kstar.mp hrest c hc)

/-- The time half is cut where its clock ends. -/
theorem clockAndOffset_append {clock offset : List Char} (hclock : clock ∈ FORMATS.clock)
    (hoffset : offset ∈ FORMATS.offset) :
    clockAndOffset (clock ++ offset) = some (clock, offset) := by
  obtain ⟨hne, hchars⟩ := FORMATS.of_mem_clock hclock
  have hdigit : ∀ c : Char, c ∈ ['Z', 'z', '+', '-'] → c.isDigit = true ∨ c = ':' ∨ c = '.' →
      False := by
    intro c hc
    simp only [List.mem_cons, List.not_mem_nil, or_false] at hc
    rcases hc with rfl | rfl | rfl | rfl <;> decide
  have hplain : ∀ c ∈ clock, (c == 'Z' || c == 'z' || c == '+') = false := by
    intro c hc
    by_contra hz
    refine hdigit c ?_ (hchars c hc)
    simp only [Bool.not_eq_false, Bool.or_eq_true, beq_iff_eq] at hz
    rcases hz with (rfl | rfl) | rfl <;> decide
  unfold clockAndOffset
  rcases hoffset with ⟨c, hc, rfl⟩ | hsigned
  · have hc : (c == 'Z' || c == 'z' || c == '+') = true := Bool.or_eq_true_iff.mpr (Or.inl hc)
    rw [splitFirst_eq_some_iff.mpr ⟨rfl, hplain, c, [], rfl, hc⟩]
  · obtain ⟨c, rest, rfl, hc, hrest⟩ := mem_one_mul.mp hsigned
    rcases Bool.or_eq_true_iff.mp hc with hplus | hminus
    · have hc : (c == 'Z' || c == 'z' || c == '+') = true := by rw [hplus, Bool.or_true]
      rw [splitFirst_eq_some_iff.mpr ⟨rfl, hplain, c, rest, rfl, hc⟩]
    · obtain rfl : c = '-' := eq_of_beq hminus
      have hfields : rest ∈ fields Char.isDigit ':' [2, 2] := hrest
      have hrestChars := of_mem_fields hfields
      have hnone : splitFirst (fun c => c == 'Z' || c == 'z' || c == '+') (clock ++ '-' :: rest) =
          none := by
        rw [splitFirst_eq_none_iff]
        intro x hx
        rcases List.mem_append.mp hx with hx | hx
        · exact hplain x hx
        · rcases List.mem_cons.mp hx with rfl | hx
          · rfl
          · by_contra hz
            refine hdigit x ?_ ((hrestChars x hx).imp_right Or.inl)
            simp only [Bool.not_eq_false, Bool.or_eq_true, beq_iff_eq] at hz
            rcases hz with (rfl | rfl) | rfl <;> decide
      have hfree : '-' ∉ rest := by
        intro hmem
        exact hdigit '-' (by decide) ((hrestChars _ hmem).imp_right Or.inl)
      rw [hnone, splitLast_append hfree]
      simp [hne]

theorem isDateTime_iff {text : List Char} : isDateTime text = true ↔ text ∈ FORMATS.dateTime := by
  rw [FORMATS.dateTime, Language.mem_mul]
  constructor
  · intro h
    unfold isDateTime at h
    split at h
    · next date t rest hsplit =>
      obtain ⟨rfl, -, c, rest', heq, ht⟩ := splitFirst_eq_some_iff.mp hsplit
      cases heq
      obtain ⟨hdate, htime⟩ := Bool.and_eq_true_iff.mp h
      split at htime
      · next clock offset hcut =>
        obtain ⟨hclock, hoffset⟩ := Bool.and_eq_true_iff.mp htime
        have hrest : rest = clock ++ offset := by
          unfold clockAndOffset at hcut
          split at hcut
          · next hfirst =>
            cases hcut
            exact (splitFirst_eq_some_iff.mp hfirst).1
          · exact splitLast_eq_some (Option.eq_some_of_filter_eq_some hcut)
        refine ⟨date, isDate_iff.mp hdate, t :: rest, mem_one_mul.mpr ⟨t, rest, rfl, ht, ?_⟩, rfl⟩
        rw [hrest]
        exact Language.append_mem_mul (isClock_iff.mp hclock) (isTimeOffset_iff.mp hoffset)
      · cases htime
    · cases h
  · intro hex
    obtain ⟨date, hdate, tail, htail, rfl⟩ := hex
    obtain ⟨t, rest, rfl, ht, hrest⟩ := mem_one_mul.mp htail
    obtain ⟨clock, hclock, offset, hoffset, rfl⟩ := Language.mem_mul.mp hrest
    have hplain : ∀ x ∈ date, (x == 'T' || x == 't') = false := by
      intro x hx
      have hfields : FORMATS.date = fields Char.isDigit '-' [4, 2, 2] := by
        simp only [FORMATS.date, FORMATS.digit, FORMATS.lit, fields, mul_assoc]
      rw [hfields] at hdate
      by_contra hz
      simp only [Bool.not_eq_false, Bool.or_eq_true, beq_iff_eq] at hz
      rcases hz with rfl | rfl <;> exact absurd (of_mem_fields hdate _ hx) (by decide)
    unfold isDateTime
    rw [splitFirst_eq_some_iff.mpr ⟨rfl, hplain, t, _, rfl, ht⟩]
    dsimp only
    rw [clockAndOffset_append hclock hoffset, isDate_iff.mpr hdate, Bool.true_and]
    exact Bool.and_eq_true_iff.mpr ⟨isClock_iff.mpr hclock, isTimeOffset_iff.mpr hoffset⟩

end Validation
end IndieWorker
