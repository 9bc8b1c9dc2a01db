/-
JSON pointers as RFC 6901 has them.

A pointer is a text of reference tokens, each behind a slash and with its slashes
and tildes escaped.  Evaluation takes the tokens one by one: in an object a token
is a member's name, in an array it is an index without leading zeros.  Documents
are any type whose values can be viewed as arrays and objects.  Evaluation also
tells the keys it went through, so that one pointer leads to one place only.
-/
import IndieWorker.Lib.Text

namespace IndieWorker
namespace JsonPointer

open Text

/-! ## Tokens and their texts -/

def escapeChar (c : Char) : List Char :=
  if c = '~' then ['~', '0'] else if c = '/' then ['~', '1'] else [c]

def escape (token : List Char) : List Char := token.flatMap escapeChar

/-- `none` where a tilde does not begin an escape. -/
def unescape : List Char → Option (List Char)
  | [] => some []
  | '~' :: '0' :: rest => (unescape rest).map ('~' :: ·)
  | '~' :: '1' :: rest => (unescape rest).map ('/' :: ·)
  | '~' :: _ => none
  | c :: rest => (unescape rest).map (c :: ·)

def render (tokens : List (List Char)) : List Char :=
  tokens.flatMap fun token => '/' :: escape token

/-- The empty text has no token; any other text begins with a slash. -/
def parse : List Char → Option (List (List Char))
  | [] => some []
  | c :: rest => if c = '/' then (splitAll '/' rest).mapM unescape else none

theorem unescape_cons {c : Char} (h : c ≠ '~') (rest : List Char) :
    unescape (c :: rest) = (unescape rest).map (c :: ·) := by
  rw [unescape]
  · intro tail heq
    exact absurd heq h
  · intro tail heq
    exact absurd heq h
  · intro heq
    exact absurd heq h

/-- Escaping is undone exactly. -/
theorem unescape_escape (token : List Char) : unescape (escape token) = some token := by
  induction token with
  | nil => rfl
  | cons c token ih =>
    rw [escape, List.flatMap_cons]
    show unescape (escapeChar c ++ escape token) = some (c :: token)
    unfold escapeChar
    by_cases htilde : c = '~'
    · rw [if_pos htilde]
      show (unescape (escape token)).map ('~' :: ·) = some (c :: token)
      rw [ih, htilde]
      rfl
    · rw [if_neg htilde]
      by_cases hslash : c = '/'
      · rw [if_pos hslash]
        show (unescape (escape token)).map ('/' :: ·) = some (c :: token)
        rw [ih, hslash]
        rfl
      · rw [if_neg hslash, List.singleton_append, unescape_cons htilde, ih]
        rfl

/-- An escaped token has no slash, so that it ends at the next one. -/
theorem slash_not_mem_escape (token : List Char) : '/' ∉ escape token := by
  intro h
  obtain ⟨c, _, hc⟩ := List.mem_flatMap.mp h
  unfold escapeChar at hc
  by_cases htilde : c = '~'
  · rw [if_pos htilde] at hc
    exact absurd hc (by decide)
  · rw [if_neg htilde] at hc
    by_cases hslash : c = '/'
    · rw [if_pos hslash] at hc
      exact absurd hc (by decide)
    · rw [if_neg hslash, List.mem_singleton] at hc
      exact hslash hc.symm

theorem render_cons (token : List Char) (tokens : List (List Char)) :
    render (token :: tokens) = '/' :: escape token ++ render tokens :=
  List.flatMap_cons

theorem render_append (tokens tokens' : List (List Char)) :
    render (tokens ++ tokens') = render tokens ++ render tokens' :=
  List.flatMap_append

theorem render_eq_nil_iff {tokens : List (List Char)} : render tokens = [] ↔ tokens = [] := by
  cases tokens with
  | nil => exact iff_of_true rfl rfl
  | cons token tokens =>
    rw [render_cons]
    exact iff_of_false (List.cons_ne_nil _ _) (List.cons_ne_nil _ _)

/-- Behind its first slash, a rendered list is its escaped tokens with slashes between. -/
theorem escape_append_render (token : List Char) (tokens : List (List Char)) :
    escape token ++ render tokens = ['/'].intercalate ((token :: tokens).map escape) := by
  induction tokens generalizing token with
  | nil =>
    show escape token ++ [] = ['/'].intercalate [escape token]
    rw [List.append_nil, List.intercalate_singleton]
  | cons next tokens ih =>
    rw [render_cons, List.cons_append, ih, List.map_cons (l := next :: tokens), List.map_cons,
      List.intercalate_cons_cons, List.append_assoc]
    rfl

theorem mapM_unescape (tokens : List (List Char)) :
    (tokens.map escape).mapM unescape = some tokens := by
  induction tokens with
  | nil => rfl
  | cons token tokens ih =>
    rw [List.map_cons, List.mapM_cons, unescape_escape, ih]
    rfl

/-- A rendered list of tokens is read back as it was. -/
theorem parse_render (tokens : List (List Char)) : parse (render tokens) = some tokens := by
  cases tokens with
  | nil => rfl
  | cons token tokens =>
    rw [render_cons]
    show (splitAll '/' (escape token ++ render tokens)).mapM unescape = some (token :: tokens)
    rw [escape_append_render, splitAll_intercalate, mapM_unescape]
    · rw [List.map_cons]
      exact List.cons_ne_nil _ _
    · intro piece hpiece
      obtain ⟨t, _, ht⟩ := List.mem_map.mp hpiece
      rw [← ht]
      exact slash_not_mem_escape t

/-! ## Array indices -/

/-- A decimal number without leading zeros. -/
def arrayIndex (token : List Char) : Option Nat :=
  if token ≠ [] ∧ token.all Char.isDigit = true ∧ (token.head? = some '0' → token.length = 1) then
    some (Nat.ofDigitChars 10 token 0)
  else none

theorem head?_toDigits {n : Nat} (h : (Nat.toDigits 10 n).head? = some '0') : n = 0 := by
  induction n using Nat.strongRecOn with
  | ind n ih =>
    rcases Nat.lt_or_ge n 10 with hlt | hge
    · rw [Nat.toDigits_of_lt_base hlt] at h
      exact Nat.digitChar_eq_zero.mp (Option.some.inj h)
    · rw [Nat.toDigits_of_base_le (by decide) hge,
        List.head?_append_of_ne_nil _ Nat.toDigits_ne_nil] at h
      have hzero := ih (n / 10) (by omega) h
      omega

theorem arrayIndex_toDigits (n : Nat) : arrayIndex (Nat.toDigits 10 n) = some n := by
  rw [arrayIndex, if_pos, Nat.ofDigitChars_toDigits (by decide) (by decide)]
  refine ⟨Nat.toDigits_ne_nil, List.all_eq_true.mpr fun c hc => ?_, fun hhead => ?_⟩
  · exact Nat.isDigit_of_mem_toDigits (by decide) (by decide) hc
  · rw [head?_toDigits hhead]
    rfl

/-- An index is written as it is. -/
theorem escape_toDigits (n : Nat) : escape (Nat.toDigits 10 n) = Nat.toDigits 10 n := by
  have hdigits : ∀ c ∈ Nat.toDigits 10 n, escapeChar c = [c] := by
    intro c hc
    have hdigit : c.isDigit = true := Nat.isDigit_of_mem_toDigits (by decide) (by decide) hc
    unfold escapeChar
    rw [if_neg, if_neg]
    · intro heq
      rw [heq] at hdigit
      exact absurd hdigit (by decide)
    · intro heq
      rw [heq] at hdigit
      exact absurd hdigit (by decide)
  rw [escape, List.flatMap_def, List.map_congr_left hdigits, ← List.flatMap_def,
    List.flatMap_singleton']

/-! ## Evaluation -/

/-- A value, as far as pointers see into it. -/
inductive View (V : Type) where
  | leaf
  | items (l : List V)
  | members (l : List (String × V))

/-- What a pointer leads to: a value, the member that an object lacks, or nothing. -/
inductive Target (V : Type) where
  | found (v : V)
  | missing (members : List (String × V)) (name : String)
  | undefined

inductive Key where
  | member (name : String)
  | item (i : Nat)
  deriving DecidableEq, Repr

def Key.token : Key → List Char
  | member name => name.toList
  | item i => Nat.toDigits 10 i

section Evaluation

variable {V : Type} (view : V → View V)

/-- The keys that the tokens go through, and what they lead to. -/
def walk : List (List Char) → V → List Key × Target V
  | [], v => ([], .found v)
  | token :: tokens, v =>
    match view v with
    | .leaf => ([], .undefined)
    | .items l =>
      match (arrayIndex token).bind fun i => l[i]?.map (i, ·) with
      | some (i, w) => ((.item i) :: (walk tokens w).1, (walk tokens w).2)
      | none => ([], .undefined)
    | .members l =>
      let name := String.ofList token
      match l.lookup name with
      | some w => (.member name :: (walk tokens w).1, (walk tokens w).2)
      | none => if tokens = [] then ([.member name], .missing l name) else ([], .undefined)

/-- A text that is no pointer leads to nothing. -/
def evaluate (pointer : List Char) (v : V) : Target V :=
  match parse pointer with
  | some tokens => (walk view tokens v).2
  | none => .undefined

/-- The keys lead from a value to a target. -/
inductive Reaches : V → List Key → Target V → Prop
  | here (v : V) : Reaches v [] (.found v)
  | item {v w : V} {l : List V} {i : Nat} {path : List Key} {t : Target V} :
    view v = .items l → l[i]? = some w → Reaches w path t → Reaches v (.item i :: path) t
  | member {v w : V} {l : List (String × V)} {name : String} {path : List Key} {t : Target V} :
    view v = .members l → l.lookup name = some w → Reaches w path t →
      Reaches v (.member name :: path) t
  | missing {v : V} {l : List (String × V)} {name : String} :
    view v = .members l → l.lookup name = none → Reaches v [.member name] (.missing l name)

variable {view} {v w : V} {path path' : List Key} {t t' : Target V}

/-- Tokens are walked as the keys they are written for. -/
theorem Reaches.walk_eq (h : Reaches view v path t) :
    walk view (path.map Key.token) v = (path, t) := by
  induction h with
  | here v => rfl
  | @item v w l i path t hview hitem _ ih =>
    rw [List.map_cons, walk, hview]
    dsimp only
    rw [show arrayIndex (Key.token (.item i)) = some i from arrayIndex_toDigits i, Option.bind_some,
      hitem, Option.map_some]
    dsimp only
    rw [ih]
  | @member v w l name path t hview hmember _ ih =>
    rw [List.map_cons, walk, hview]
    dsimp only
    rw [show String.ofList (Key.token (.member name)) = name from String.ofList_toList, hmember]
    dsimp only
    rw [ih]
  | @missing v l name hview hnone =>
    rw [List.map_cons, walk, hview]
    dsimp only
    rw [show String.ofList (Key.token (.member name)) = name from String.ofList_toList, hnone]
    rfl

theorem Reaches.trans (h : Reaches view v path (.found w)) (h' : Reaches view w path' t) :
    Reaches view v (path ++ path') t := by
  generalize hfound : Target.found w = s at h
  induction h with
  | here v =>
    cases hfound
    exact h'
  | item hview hitem _ ih => exact .item hview hitem (ih hfound)
  | member hview hmember _ ih => exact .member hview hmember (ih hfound)
  | missing _ _ => cases hfound

/-- The text of the keys is a pointer to what they lead to. -/
theorem Reaches.evaluate_eq (h : Reaches view v path t) :
    evaluate view (render (path.map Key.token)) v = t := by
  rw [evaluate, parse_render]
  dsimp only
  rw [h.walk_eq]

/-- Different places of a document have different pointers. -/
theorem Reaches.render_inj (h : Reaches view v path t) (h' : Reaches view v path' t')
    (heq : render (path.map Key.token) = render (path'.map Key.token)) : path = path' := by
  have htokens : path.map Key.token = path'.map Key.token := by
    have hparse := congrArg parse heq
    rw [parse_render, parse_render] at hparse
    exact Option.some.inj hparse
  have hwalk := h.walk_eq
  rw [htokens, h'.walk_eq] at hwalk
  exact (congrArg Prod.fst hwalk).symm

end Evaluation

end JsonPointer
end IndieWorker
