import IndieWorker.TypeScript.JsValue

/-!
# `JSON.stringify`

The text of a value without indentation, given how a number is printed.  Where two
numbers never print alike and no number prints a delimiter, the text of a value can
be told apart from what follows it, and values print alike only if they are the same.
-/

namespace IndieWorker
namespace TypeScript

open Validation

/-- The escapes of one letter. -/
def SHORT_ESCAPES : List (Char × Char) :=
  [('\x08', 'b'), ('\t', 't'), ('\n', 'n'), ('\x0c', 'f'), ('\r', 'r'), ('"', '"'), ('\\', '\\')]

def quoteChar (c : Char) : List Char :=
  match SHORT_ESCAPES.lookup c with
  | some escape => ['\\', escape]
  | none =>
    if c.toNat < 32 then
      ['\\', 'u', '0', '0', Nat.digitChar (c.toNat / 16), Nat.digitChar (c.toNat % 16)]
    else [c]

def quote (s : String) : String := String.ofList ('"' :: s.toList.flatMap quoteChar ++ ['"'])

section Stringify

variable (numberText : Binary64 → String)

mutual

def stringify : JsValue → String
  | .null => "null"
  | .boolean b => if b then "true" else "false"
  | .number x => numberText x
  | .string s => quote s
  | .array items => "[" ++ stringifyItems items ++ "]"
  | .object members =>
    String.singleton '\x7b' ++ stringifyMembers members ++ String.singleton '\x7d'

def stringifyItems : List JsValue → String
  | [] => ""
  | item :: items =>
    stringify item ++ (if items.isEmpty then "" else ",") ++ stringifyItems items

def stringifyMembers : List (String × JsValue) → String
  | [] => ""
  | (key, value) :: members =>
    quote key ++ ":" ++ stringify value ++ (if members.isEmpty then "" else ",") ++
      stringifyMembers members

end

end Stringify

/-! ## Quoted texts -/

theorem mem_of_lookup {c escape : Char} (h : SHORT_ESCAPES.lookup c = some escape) :
    (c, escape) ∈ SHORT_ESCAPES := by
  obtain ⟨before, after, heq, -⟩ := List.lookup_eq_some_iff.mp h
  rw [heq]
  exact List.mem_append_right _ List.mem_cons_self

theorem quoteChar_cases (c : Char) :
    (∃ escape, (c, escape) ∈ SHORT_ESCAPES ∧ quoteChar c = ['\\', escape]) ∨
      (c.toNat < 32 ∧ quoteChar c =
        ['\\', 'u', '0', '0', Nat.digitChar (c.toNat / 16), Nat.digitChar (c.toNat % 16)]) ∨
      (c ∉ ['\\', '"'] ∧ quoteChar c = [c]) := by
  unfold quoteChar
  rcases hlookup : SHORT_ESCAPES.lookup c with _ | escape
  · have hplain : c ∉ ['\\', '"'] := by
      intro hmem
      simp only [List.mem_cons, List.not_mem_nil, or_false] at hmem
      rcases hmem with rfl | rfl <;> cases hlookup
    by_cases hc : c.toNat < 32
    · exact Or.inr (Or.inl ⟨hc, if_pos hc⟩)
    · exact Or.inr (Or.inr ⟨hplain, if_neg hc⟩)
  · exact Or.inl ⟨escape, mem_of_lookup hlookup, rfl⟩

/-- No escape of one letter is the `u` of the numeric ones. -/
theorem escape_ne_u {c escape : Char} (h : (c, escape) ∈ SHORT_ESCAPES) : escape ≠ 'u' := by
  have hall : ∀ p ∈ SHORT_ESCAPES, p.2 ≠ 'u' := by decide
  exact hall _ h

theorem escape_inj {c d escape : Char} (hc : (c, escape) ∈ SHORT_ESCAPES)
    (hd : (d, escape) ∈ SHORT_ESCAPES) : c = d := by
  have hall : ∀ p ∈ SHORT_ESCAPES, ∀ q ∈ SHORT_ESCAPES, p.2 = q.2 → p.1 = q.1 := by decide
  exact hall _ hc _ hd rfl

/-- Two hexadecimal digits name one control character. -/
theorem control_inj {c d : Char} (hc : c.toNat < 32) (hd : d.toNat < 32)
    (hhi : Nat.digitChar (c.toNat / 16) = Nat.digitChar (d.toNat / 16))
    (hlo : Nat.digitChar (c.toNat % 16) = Nat.digitChar (d.toNat % 16)) : c = d := by
  have hall : ∀ a < 32, ∀ b < 32, Nat.digitChar (a / 16) = Nat.digitChar (b / 16) →
      Nat.digitChar (a % 16) = Nat.digitChar (b % 16) → a = b := by decide
  exact Char.toNat_inj.mp (hall _ hc _ hd hhi hlo)

/-- What is quoted can be told apart, also with more text behind it. -/
theorem quoteChar_append_inj {c d : Char} {x y : List Char}
    (h : quoteChar c ++ x = quoteChar d ++ y) : c = d ∧ x = y := by
  have hplain : ∀ {c : Char}, c ∉ ['\\', '"'] → c ≠ '\\' := fun hc heq => hc (by simp [heq])
  rcases quoteChar_cases c with ⟨e, he, hc⟩ | ⟨hlt, hc⟩ | ⟨hne, hc⟩
  · rcases quoteChar_cases d with ⟨f, hf, hd⟩ | ⟨hlt', hd⟩ | ⟨hne', hd⟩
    · rw [hc, hd] at h
      obtain ⟨rfl, rfl⟩ : e = f ∧ x = y := by simpa using h
      exact ⟨escape_inj he hf, rfl⟩
    · rw [hc, hd] at h
      exact absurd (by simpa using h : e = 'u' ∧ _).1 (escape_ne_u he)
    · rw [hc, hd] at h
      exact absurd (List.cons.inj h).1.symm (hplain hne')
  · rcases quoteChar_cases d with ⟨f, hf, hd⟩ | ⟨hlt', hd⟩ | ⟨hne', hd⟩
    · rw [hc, hd] at h
      exact absurd (by simpa using h : 'u' = f ∧ _).1.symm (escape_ne_u hf)
    · rw [hc, hd] at h
      obtain ⟨hhi, hlo, rfl⟩ := (by simpa using h : _ ∧ _ ∧ x = y)
      exact ⟨control_inj hlt hlt' hhi hlo, rfl⟩
    · rw [hc, hd] at h
      exact absurd (List.cons.inj h).1.symm (hplain hne')
  · rcases quoteChar_cases d with ⟨f, hf, hd⟩ | ⟨hlt', hd⟩ | ⟨hne', hd⟩
    · rw [hc, hd] at h
      exact absurd (List.cons.inj h).1 (hplain hne)
    · rw [hc, hd] at h
      exact absurd (List.cons.inj h).1 (hplain hne)
    · rw [hc, hd] at h
      exact List.cons.inj h

/-- No quoted character starts like the end of the text. -/
theorem quoteChar_ne_quote (c : Char) (x y : List Char) : quoteChar c ++ x ≠ '"' :: y := by
  intro h
  rcases quoteChar_cases c with ⟨e, -, hc⟩ | ⟨-, hc⟩ | ⟨hne, hc⟩
  · rw [hc] at h
    exact absurd (List.cons.inj h).1 (by decide)
  · rw [hc] at h
    exact absurd (List.cons.inj h).1 (by decide)
  · rw [hc] at h
    exact hne (by simp [(List.cons.inj h).1])

theorem toList_quote (s : String) :
    (quote s).toList = '"' :: (s.toList.flatMap quoteChar ++ ['"']) := by
  rw [quote, String.toList_ofList, List.cons_append]

/-- A quoted text can be told apart from what follows it. -/
theorem quote_append_inj {s t : String} {x y : List Char}
    (h : (quote s).toList ++ x = (quote t).toList ++ y) : s = t ∧ x = y := by
  have hinside : ∀ cs ds : List Char,
      cs.flatMap quoteChar ++ '"' :: x = ds.flatMap quoteChar ++ '"' :: y → cs = ds ∧ x = y := by
    intro cs
    induction cs with
    | nil =>
      intro ds hds
      cases ds with
      | nil => exact ⟨rfl, (List.cons.inj hds).2⟩
      | cons d ds =>
        rw [List.flatMap_cons, List.append_assoc] at hds
        exact absurd hds.symm (quoteChar_ne_quote d _ _)
    | cons c cs ih =>
      intro ds hds
      rw [List.flatMap_cons, List.append_assoc] at hds
      cases ds with
      | nil => exact absurd hds (quoteChar_ne_quote c _ _)
      | cons d ds =>
        rw [List.flatMap_cons, List.append_assoc] at hds
        obtain ⟨rfl, hrest⟩ := quoteChar_append_inj hds
        obtain ⟨rfl, rfl⟩ := ih ds hrest
        exact ⟨rfl, rfl⟩
  rw [toList_quote, toList_quote] at h
  simp only [List.cons_append, List.append_assoc, List.nil_append, List.cons.injEq, true_and] at h
  obtain ⟨hlist, hrest⟩ := hinside _ _ h
  exact ⟨String.toList_inj.mp hlist, hrest⟩

/-! ## Texts of values -/

/-- The characters a number is printed with. -/
def NUMBER_CHARS : List Char :=
  ['0', '1', '2', '3', '4', '5', '6', '7', '8', '9', '-', '+', '.', 'e']

/-- How numbers are printed: no two alike, and without a delimiter. -/
structure NumberText where
  print : Binary64 → String
  injective : Function.Injective print
  ne_nil : ∀ x, (print x).toList ≠ []
  chars : ∀ x, ∀ c ∈ (print x).toList, c ∈ NUMBER_CHARS

/-- Where texts over some characters go on with another, or end, they can be cut off. -/
theorem span_append_inj {chars cs ds rest rest' : List Char} (hcs : ∀ c ∈ cs, c ∈ chars)
    (hds : ∀ c ∈ ds, c ∈ chars) (hrest : ∀ c ∈ rest.head?, c ∉ chars)
    (hrest' : ∀ c ∈ rest'.head?, c ∉ chars) (h : cs ++ rest = ds ++ rest') :
    cs = ds ∧ rest = rest' := by
  induction cs generalizing ds with
  | nil =>
    cases ds with
    | nil => exact ⟨rfl, h⟩
    | cons d ds =>
      have hhead : rest.head? = some d := by
        have := congrArg List.head? h
        simpa using this
      exact absurd (hds d List.mem_cons_self) (hrest d hhead)
  | cons c cs ih =>
    cases ds with
    | nil =>
      have hhead : rest'.head? = some c := by
        have := congrArg List.head? h.symm
        simpa using this
      exact absurd (hcs c List.mem_cons_self) (hrest' c hhead)
    | cons d ds =>
      obtain ⟨rfl, htail⟩ := List.cons.inj h
      obtain ⟨rfl, hsame⟩ := ih (fun c hc => hcs c (List.mem_cons_of_mem _ hc))
        (fun c hc => hds c (List.mem_cons_of_mem _ hc)) htail
      exact ⟨rfl, hsame⟩

/-- What may follow a number: nothing, or no character of one. -/
def Delimited (rest : List Char) : Prop := ∀ c ∈ rest.head?, c ∉ NUMBER_CHARS

section Values

variable {nt : NumberText}

theorem NumberText.append_inj {x y : Binary64} {rest rest' : List Char} (hrest : Delimited rest)
    (hrest' : Delimited rest') (h : (nt.print x).toList ++ rest = (nt.print y).toList ++ rest') :
    x = y ∧ rest = rest' := by
  obtain ⟨htext, hsame⟩ := span_append_inj (nt.chars x) (nt.chars y) hrest hrest' h
  exact ⟨nt.injective (String.toList_inj.mp htext), hsame⟩

/-- How the text of a value may start; the first character tells its kind. -/
def starts : JsValue → List Char
  | .null => ['n']
  | .boolean b => if b then ['t'] else ['f']
  | .number _ => NUMBER_CHARS
  | .string _ => ['"']
  | .array _ => ['[']
  | .object _ => ['\x7b']

variable (nt) in
theorem stringify_head (v : JsValue) :
    ∃ c cs, (stringify nt.print v).toList = c :: cs ∧ c ∈ starts v := by
  cases v with
  | null => exact ⟨'n', ['u', 'l', 'l'], by simp [stringify], by simp [starts]⟩
  | boolean b =>
    cases b with
    | true => exact ⟨'t', ['r', 'u', 'e'], by simp [stringify], by simp [starts]⟩
    | false => exact ⟨'f', ['a', 'l', 's', 'e'], by simp [stringify], by simp [starts]⟩
  | number x =>
    obtain ⟨c, cs, hcs⟩ := List.exists_cons_of_ne_nil (nt.ne_nil x)
    exact ⟨c, cs, hcs, nt.chars x c (by rw [hcs]; exact List.mem_cons_self)⟩
  | string s => exact ⟨_, _, toList_quote s, by simp [starts]⟩
  | array items =>
    exact ⟨'[', (stringifyItems nt.print items).toList ++ [']'], by simp [stringify],
      by simp [starts]⟩
  | object members =>
    exact ⟨'\x7b', (stringifyMembers nt.print members).toList ++ ['\x7d'], by simp [stringify],
      by simp [starts]⟩

/-- No value starts with what stands between or behind values. -/
theorem stringify_append_ne (v : JsValue) {d : Char} (hd : d ∈ [',', ']', '\x7d'])
    (x y : List Char) : (stringify nt.print v).toList ++ x ≠ d :: y := by
  intro h
  obtain ⟨c, cs, hcs, hstarts⟩ := stringify_head nt v
  rw [hcs] at h
  obtain rfl : c = d := (List.cons.inj h).1
  have hnone : ∀ d ∈ [',', ']', '\x7d'],
      d ∉ NUMBER_CHARS ∧ d ∉ ['n', 't', 'f', '"', '[', '\x7b'] := by simp [NUMBER_CHARS]
  obtain ⟨hnumber, hother⟩ := hnone c hd
  cases v with
  | number x => exact hnumber hstarts
  | boolean b => cases b <;> simp_all [starts]
  | _ => simp_all [starts]

/-- Two values of one kind; of the booleans, two that are the same. -/
inductive SameKind : JsValue → JsValue → Prop
  | null : SameKind .null .null
  | boolean (b : Bool) : SameKind (.boolean b) (.boolean b)
  | number (x y : Binary64) : SameKind (.number x) (.number y)
  | string (s t : String) : SameKind (.string s) (.string t)
  | array (items items' : List JsValue) : SameKind (.array items) (.array items')
  | object (members members' : List (String × JsValue)) :
      SameKind (.object members) (.object members')

/-- Texts that are the same start the same, so what they are texts of is of one kind. -/
theorem sameKind_of_append_eq {v w : JsValue} {x y : List Char}
    (h : (stringify nt.print v).toList ++ x = (stringify nt.print w).toList ++ y) :
    SameKind v w := by
  obtain ⟨c, cs, hcs, hv⟩ := stringify_head nt v
  obtain ⟨d, ds, hds, hw⟩ := stringify_head nt w
  rw [hcs, hds] at h
  obtain rfl : c = d := (List.cons.inj h).1
  cases v with
  | null =>
    obtain rfl : c = 'n' := List.mem_singleton.mp hv
    cases w with
    | null => exact .null
    | boolean b => cases b <;> simp [starts] at hw
    | _ => simp [starts, NUMBER_CHARS] at hw
  | boolean b =>
    obtain rfl : c = if b then 't' else 'f' := by cases b <;> simpa [starts] using hv
    cases w with
    | boolean b' =>
      obtain rfl : b = b' := by cases b <;> cases b' <;> simp [starts] at hw ⊢
      exact .boolean b
    | _ => cases b <;> simp [starts, NUMBER_CHARS] at hw
  | number n =>
    cases w with
    | number n' => exact .number n n'
    | boolean b => cases b <;> simp_all [starts, NUMBER_CHARS]
    | _ => simp_all [starts, NUMBER_CHARS]
  | string s =>
    obtain rfl : c = '"' := List.mem_singleton.mp hv
    cases w with
    | string t => exact .string s t
    | boolean b => cases b <;> simp [starts] at hw
    | _ => simp [starts, NUMBER_CHARS] at hw
  | array items =>
    obtain rfl : c = '[' := List.mem_singleton.mp hv
    cases w with
    | array items' => exact .array items items'
    | boolean b => cases b <;> simp [starts] at hw
    | _ => simp [starts, NUMBER_CHARS] at hw
  | object members =>
    obtain rfl : c = '\x7b' := List.mem_singleton.mp hv
    cases w with
    | object members' => exact .object members members'
    | boolean b => cases b <;> simp [starts] at hw
    | _ => simp [starts, NUMBER_CHARS] at hw

/-- What stands behind an entry of a list: a comma and the other entries, or the end. -/
def separated {α : Type} (entries : List α) (text : String) (close : Char) (rest : List Char) :
    List Char :=
  (if entries.isEmpty then "" else ",").toList ++ (text.toList ++ close :: rest)

theorem separated_delimited {α : Type} (entries : List α) {text : String} {close : Char}
    (hclose : close ∈ [']', '\x7d']) (rest : List Char) (hnil : entries = [] → text = "") :
    Delimited (separated entries text close rest) := by
  have hnone : ∀ d ∈ [',', ']', '\x7d'], d ∉ NUMBER_CHARS := by simp [NUMBER_CHARS]
  cases entries with
  | nil =>
    rw [hnil rfl]
    intro c hc
    obtain rfl : close = c := Option.some.inj hc
    exact hnone _ (List.mem_cons_of_mem _ hclose)
  | cons =>
    intro c hc
    obtain rfl : ',' = c := by simpa [separated] using hc
    exact hnone _ (by decide)

/-- Behind an entry, both lists end or both go on. -/
theorem separated_inj {α : Type} {entries entries' : List α} {text text' : String} {close : Char}
    (hclose : close ∈ [']', '\x7d']) {x y : List Char}
    (hnil : entries = [] → text = "") (hnil' : entries' = [] → text' = "")
    (h : separated entries text close x = separated entries' text' close y) :
    text.toList ++ close :: x = text'.toList ++ close :: y := by
  have hne : close ≠ ',' := by
    simp only [List.mem_cons, List.not_mem_nil, or_false] at hclose
    rcases hclose with rfl | rfl <;> decide
  unfold separated at h
  cases entries with
  | nil =>
    cases entries' with
    | nil => simpa using h
    | cons w ws =>
      rw [hnil rfl] at h
      exact absurd (by simpa using congrArg List.head? h) hne
  | cons v vs =>
    cases entries' with
    | nil =>
      rw [hnil' rfl] at h
      exact absurd (by simpa using (congrArg List.head? h).symm) hne
    | cons w ws => simpa using h

theorem stringifyItems_nil {items : List JsValue} (h : items = []) :
    stringifyItems nt.print items = "" := by
  rw [h, stringifyItems]

theorem stringifyMembers_nil {members : List (String × JsValue)} (h : members = []) :
    stringifyMembers nt.print members = "" := by
  rw [h, stringifyMembers]

theorem toList_stringifyItems_nil (x : List Char) :
    (stringifyItems nt.print []).toList ++ ']' :: x = ']' :: x := by
  simp [stringifyItems]

theorem toList_stringifyMembers_nil (x : List Char) :
    (stringifyMembers nt.print []).toList ++ '\x7d' :: x = '\x7d' :: x := by
  simp [stringifyMembers]

theorem toList_stringifyItems_cons (v : JsValue) (vs : List JsValue) (x : List Char) :
    (stringifyItems nt.print (v :: vs)).toList ++ ']' :: x =
      (stringify nt.print v).toList ++ separated vs (stringifyItems nt.print vs) ']' x := by
  simp [stringifyItems, separated]

theorem toList_stringifyMembers_cons (key : String) (v : JsValue) (vs : List (String × JsValue))
    (x : List Char) :
    (stringifyMembers nt.print ((key, v) :: vs)).toList ++ '\x7d' :: x =
      (quote key).toList ++ ':' :: ((stringify nt.print v).toList ++
        separated vs (stringifyMembers nt.print vs) '\x7d' x) := by
  simp [stringifyMembers, separated]

variable (nt) in
/-- The text of the value can be told apart from what follows it. -/
def ToldApart (v : JsValue) : Prop :=
  ∀ (w : JsValue) (x y : List Char), Delimited x → Delimited y →
    (stringify nt.print v).toList ++ x = (stringify nt.print w).toList ++ y → v = w ∧ x = y

theorem stringifyItems_append_inj {items : List JsValue} (hitems : ∀ v ∈ items, ToldApart nt v)
    (items' : List JsValue) {x y : List Char}
    (h : (stringifyItems nt.print items).toList ++ ']' :: x =
      (stringifyItems nt.print items').toList ++ ']' :: y) : items = items' ∧ x = y := by
  induction items generalizing items' with
  | nil =>
    rw [toList_stringifyItems_nil] at h
    cases items' with
    | nil =>
      rw [toList_stringifyItems_nil] at h
      exact ⟨rfl, (List.cons.inj h).2⟩
    | cons w ws =>
      rw [toList_stringifyItems_cons] at h
      exact absurd h.symm (stringify_append_ne w (by decide) _ _)
  | cons v vs ih =>
    obtain ⟨hv, hvs⟩ := List.forall_mem_cons.mp hitems
    rw [toList_stringifyItems_cons] at h
    cases items' with
    | nil =>
      rw [toList_stringifyItems_nil] at h
      exact absurd h (stringify_append_ne v (by decide) _ _)
    | cons w ws =>
      rw [toList_stringifyItems_cons] at h
      obtain ⟨rfl, hrest⟩ := hv w _ _ (separated_delimited vs (by decide) x stringifyItems_nil)
        (separated_delimited ws (by decide) y stringifyItems_nil) h
      obtain ⟨rfl, hsame⟩ := ih hvs ws
        (separated_inj (by decide) stringifyItems_nil stringifyItems_nil hrest)
      exact ⟨rfl, hsame⟩

theorem stringifyMembers_append_inj {members : List (String × JsValue)}
    (hmembers : ∀ member ∈ members, ToldApart nt member.2) (members' : List (String × JsValue))
    {x y : List Char} (h : (stringifyMembers nt.print members).toList ++ '\x7d' :: x =
      (stringifyMembers nt.print members').toList ++ '\x7d' :: y) : members = members' ∧ x = y := by
  induction members generalizing members' with
  | nil =>
    rw [toList_stringifyMembers_nil] at h
    cases members' with
    | nil =>
      rw [toList_stringifyMembers_nil] at h
      exact ⟨rfl, (List.cons.inj h).2⟩
    | cons member members' =>
      rw [toList_stringifyMembers_cons, toList_quote] at h
      exact absurd (List.cons.inj h).1 (by decide)
  | cons member vs ih =>
    obtain ⟨key, v⟩ := member
    obtain ⟨hv, hvs⟩ := List.forall_mem_cons.mp hmembers
    rw [toList_stringifyMembers_cons] at h
    cases members' with
    | nil =>
      rw [toList_quote, toList_stringifyMembers_nil] at h
      exact absurd (List.cons.inj h).1 (by decide)
    | cons member' ws =>
      obtain ⟨key', w⟩ := member'
      rw [toList_stringifyMembers_cons] at h
      obtain ⟨rfl, hvalue⟩ := quote_append_inj h
      obtain ⟨rfl, hrest⟩ := hv w _ _ (separated_delimited vs (by decide) x stringifyMembers_nil)
        (separated_delimited ws (by decide) y stringifyMembers_nil) (List.cons.inj hvalue).2
      obtain ⟨rfl, hsame⟩ := ih hvs ws
        (separated_inj (by decide) stringifyMembers_nil stringifyMembers_nil hrest)
      exact ⟨rfl, hsame⟩

theorem toldApart (v : JsValue) : ToldApart nt v := by
  induction hsize : sizeOf v using Nat.strongRecOn generalizing v with
  | _ n ih =>
    intro w x y hx hy h
    cases sameKind_of_append_eq h with
    | null => exact ⟨rfl, List.append_cancel_left h⟩
    | boolean b => exact ⟨rfl, List.append_cancel_left h⟩
    | number n n' =>
      obtain ⟨rfl, hsame⟩ := NumberText.append_inj hx hy h
      exact ⟨rfl, hsame⟩
    | string s t =>
      obtain ⟨rfl, hsame⟩ := quote_append_inj h
      exact ⟨rfl, hsame⟩
    | array items items' =>
      have hitems : ∀ v ∈ items, ToldApart nt v := fun v hv =>
        ih _ (hsize ▸ sizeOf_lt_of_mem_items hv) v rfl
      simp only [stringify, String.toList_append, List.append_assoc] at h
      obtain ⟨rfl, hsame⟩ := stringifyItems_append_inj hitems items' (List.append_cancel_left h)
      exact ⟨rfl, hsame⟩
    | object members members' =>
      have hmembers : ∀ member ∈ members, ToldApart nt member.2 := fun member hmember =>
        ih _ (hsize ▸ sizeOf_lt_of_mem_members hmember) member.2 rfl
      simp only [stringify, String.toList_append, List.append_assoc] at h
      obtain ⟨rfl, hsame⟩ := stringifyMembers_append_inj hmembers members'
        (List.append_cancel_left h)
      exact ⟨rfl, hsame⟩

/-- Values print alike exactly when they are the same, to the order of the members. -/
theorem stringify_inj {v w : JsValue} :
    stringify nt.print v = stringify nt.print w ↔ v = w := by
  refine ⟨fun h => ?_, fun h => by rw [h]⟩
  have hend : Delimited [] := nofun
  exact (toldApart v w [] [] hend hend (by rw [h])).1

end Values

/-! ## Numbers as fractions -/

/-- A fraction in lowest terms: numerator, dot and denominator, or an integer alone. -/
def fraction (q : ℚ) : List Char :=
  (if q.num < 0 then ['-'] else []) ++
    (Nat.toDigits 10 q.num.natAbs ++ if q.den = 1 then [] else '.' :: Nat.toDigits 10 q.den)

/-- The digits of a numerator or denominator. -/
def DIGITS : List Char := ['0', '1', '2', '3', '4', '5', '6', '7', '8', '9']

theorem mem_digits {n : ℕ} {c : Char} (h : c ∈ Nat.toDigits 10 n) : c ∈ DIGITS := by
  have hdigit := Nat.isDigit_of_mem_toDigits (by decide) (by decide) h
  obtain ⟨hlo, hhi⟩ := Char.isDigit_iff_toNat.mp hdigit
  have hchar : c = Char.ofNat c.toNat := (Char.ofNat_toNat c).symm
  generalize c.toNat = k at hlo hhi hchar
  have hk : k ∈ List.range 58 := List.mem_range.mpr (Nat.lt_succ_of_le hhi)
  have hall : ∀ k ∈ List.range 58, 48 ≤ k → Char.ofNat k ∈ DIGITS := by decide
  rw [hchar]
  exact hall k hk hlo

theorem toDigits_inj {m n : ℕ} (h : Nat.toDigits 10 m = Nat.toDigits 10 n) : m = n := by
  rw [← Nat.ofDigitChars_ten_toDigits (n := m), h, Nat.ofDigitChars_ten_toDigits]

theorem fraction_injective : Function.Injective fraction := by
  have hsign : ∀ q : ℚ, ∀ c ∈ (if q.num < 0 then ['-'] else []), c ∈ ['-'] := by
    intro q c hc
    split at hc
    · exact hc
    · cases hc
  -- the first digit is no sign, and behind the digits nothing or a dot stands
  have hfront : ∀ (n : ℕ) (rest : List Char), ∀ c ∈ (Nat.toDigits 10 n ++ rest).head?,
      c ∉ ['-'] := by
    intro n rest c hc
    obtain ⟨d, ds, hd⟩ := List.exists_cons_of_ne_nil (Nat.toDigits_ne_nil (b := 10) (n := n))
    have hmem : d ∈ DIGITS := mem_digits (n := n) (by rw [hd]; exact List.mem_cons_self)
    rw [hd] at hc
    obtain rfl : d = c := Option.some.inj hc
    intro hminus
    rw [List.mem_singleton.mp hminus] at hmem
    exact absurd hmem (by decide)
  have htail : ∀ q : ℚ, ∀ c ∈ (if q.den = 1 then [] else '.' :: Nat.toDigits 10 q.den).head?,
      c ∉ DIGITS := by
    intro q c hc
    split at hc
    · cases hc
    · obtain rfl : '.' = c := Option.some.inj hc
      decide
  intro p q h
  obtain ⟨hsame, h⟩ := span_append_inj (hsign p) (hsign q) (hfront _ _) (hfront _ _) h
  obtain ⟨hdigits, h⟩ := span_append_inj (fun _ => mem_digits) (fun _ => mem_digits) (htail p)
    (htail q) h
  have habs := toDigits_inj hdigits
  have hden : p.den = q.den := by
    split at h
    · split at h
      · omega
      · cases h
    · split at h
      · cases h
      · exact toDigits_inj (List.cons.inj h).2
  have hnum : p.num = q.num := by
    split at hsame
    · split at hsame
      · omega
      · cases hsame
    · split at hsame
      · cases hsame
      · omega
  exact Rat.ext hnum hden

theorem fraction_chars {q : ℚ} {c : Char} (h : c ∈ fraction q) : c ∈ NUMBER_CHARS := by
  have hdigit : ∀ d ∈ DIGITS, d ∈ NUMBER_CHARS := by simp [DIGITS, NUMBER_CHARS]
  rcases List.mem_append.mp h with h | h
  · split at h
    · obtain rfl := List.mem_singleton.mp h
      decide
    · cases h
  · rcases List.mem_append.mp h with h | h
    · exact hdigit c (mem_digits h)
    · split at h
      · cases h
      · rcases List.mem_cons.mp h with rfl | h
        · decide
        · exact hdigit c (mem_digits h)

/-- A way to print numbers, the usual one on small integers. -/
def NumberText.fractions : NumberText where
  print x := String.ofList (fraction x.value)
  injective x y h := by
    have hvalue := fraction_injective (String.ofList_injective h)
    cases x
    cases y
    cases hvalue
    rfl
  ne_nil x h := by
    rw [String.toList_ofList] at h
    exact Nat.toDigits_ne_nil (List.append_eq_nil_iff.mp (List.append_eq_nil_iff.mp h).2).1
  chars x c hc := by
    rw [String.toList_ofList] at hc
    exact fraction_chars hc

end TypeScript
end IndieWorker
