/-
Cutting a byte stream into items.

A `Framing` looks at the front of a buffer and finds a whole item, an error, or
too little to tell.  Its laws say that an answer, once given, is not changed by
what arrives later.  `parse` cuts a whole input at once; `Cuts w as b` says that
a decoder which has been fed `w` may have handed out `as` and still hold `b`.
The results relate the two whatever the chunks were and whenever the decoder was
asked.
-/
import Mathlib.Data.List.Basic
import Mathlib.Data.List.Induction

namespace IndieWorker

/-- The front of a buffer. -/
inductive Front (α ε : Type) where
  | more
  | item (a : α) (size : Nat)
  | fail (e : ε)

/-- A front that is decided by a prefix and stays decided. -/
structure Framing (β α ε : Type) where
  front : List β → Front α ε
  item_pos : ∀ {b a n}, front b = .item a n → 0 < n
  item_le : ∀ {b a n}, front b = .item a n → n ≤ b.length
  item_append : ∀ {b a n} (x : List β), front b = .item a n → front (b ++ x) = .item a n
  fail_append : ∀ {b e} (x : List β), front b = .fail e → front (b ++ x) = .fail e

namespace Framing

variable {β α ε : Type} (F : Framing β α ε)

theorem drop_length_lt {b : List β} {a : α} {n : Nat} (h : F.front b = .item a n) :
    (b.drop n).length < b.length := by
  have hpos := F.item_pos h
  have hle := F.item_le h
  rw [List.length_drop]
  omega

/-- Cut from the front until nothing more can be cut: the items, and the error
that stopped it if it was one. -/
def parse (b : List β) : List α × Option ε :=
  match _h : F.front b with
  | .more => ([], none)
  | .fail e => ([], some e)
  | .item a n =>
    let p := parse (b.drop n)
    (a :: p.1, p.2)
termination_by b.length
decreasing_by exact F.drop_length_lt _h

variable {F}

theorem parse_more {b : List β} (h : F.front b = .more) : F.parse b = ([], none) := by
  rw [parse]
  split
  · rfl
  · next hfail =>
    rw [h] at hfail
    cases hfail
  · next hitem =>
    rw [h] at hitem
    cases hitem

theorem parse_fail {b : List β} {e : ε} (h : F.front b = .fail e) :
    F.parse b = ([], some e) := by
  rw [parse]
  split
  · next hmore =>
    rw [h] at hmore
    cases hmore
  · next hfail =>
    rw [h] at hfail
    cases hfail
    rfl
  · next hitem =>
    rw [h] at hitem
    cases hitem

theorem parse_item {b : List β} {a : α} {n : Nat} (h : F.front b = .item a n) :
    F.parse b = (a :: (F.parse (b.drop n)).1, (F.parse (b.drop n)).2) := by
  rw [parse]
  split
  · next hmore =>
    rw [h] at hmore
    cases hmore
  · next hfail =>
    rw [h] at hfail
    cases hfail
  · next hitem =>
    rw [h] at hitem
    cases hitem
    rfl

/-- `as` cut off the front of `w` leave `b`. -/
inductive Cuts (F : Framing β α ε) : List β → List α → List β → Prop where
  | nil (b : List β) : Cuts F b [] b
  | cons {b : List β} {a : α} {n : Nat} {as : List α} {c : List β}
      (h : F.front b = .item a n) (rest : Cuts F (b.drop n) as c) : Cuts F b (a :: as) c

/-- Bytes that arrive later join what is held and change no item. -/
theorem Cuts.append {w b : List β} {as : List α} (h : F.Cuts w as b) (x : List β) :
    F.Cuts (w ++ x) as (b ++ x) := by
  induction h with
  | nil b => exact .nil (b ++ x)
  | cons hf _ ih =>
    refine .cons (F.item_append x hf) ?_
    rwa [List.drop_append_of_le_length (F.item_le hf)]

theorem Cuts.concat {w b : List β} {as : List α} {a : α} {n : Nat} (h : F.Cuts w as b)
    (hb : F.front b = .item a n) : F.Cuts w (as ++ [a]) (b.drop n) := by
  induction h with
  | nil b => exact .cons hb (.nil _)
  | cons hf _ ih => exact .cons hf (ih hb)

theorem Cuts.parse_eq {w b : List β} {as : List α} (h : F.Cuts w as b) :
    F.parse w = (as ++ (F.parse b).1, (F.parse b).2) := by
  induction h with
  | nil b => rfl
  | cons hf _ ih => rw [parse_item hf, ih, List.cons_append]

/-- What a decoder has handed out is a prefix of what the whole input holds. -/
theorem Cuts.prefix_parse {w b : List β} {as : List α} (h : F.Cuts w as b) (x : List β) :
    as <+: (F.parse (w ++ x)).1 := by
  rw [(h.append x).parse_eq]
  exact List.prefix_append _ _

/-- A decoder that waits has handed out every item. -/
theorem Cuts.parse_of_more {w b : List β} {as : List α} (h : F.Cuts w as b)
    (hb : F.front b = .more) : F.parse w = (as, none) := by
  rw [h.parse_eq, parse_more hb, List.append_nil]

/-- A decoder that fails has handed out every item before the error. -/
theorem Cuts.parse_of_fail {w b : List β} {as : List α} {e : ε} (h : F.Cuts w as b)
    (hb : F.front b = .fail e) : F.parse w = (as, some e) := by
  rw [h.parse_eq, parse_fail hb, List.append_nil]

/-- Items written one after another are cut back exactly. -/
theorem cuts_flatten (write : α → List β) {as : List α}
    (hwrite : ∀ a ∈ as, ∀ x, F.front (write a ++ x) = .item a (write a).length) (x : List β) :
    F.Cuts ((as.map write).flatten ++ x) as x := by
  induction as with
  | nil => exact .nil x
  | cons a as ih =>
    rw [List.map_cons, List.flatten_cons, List.append_assoc]
    refine .cons (hwrite a List.mem_cons_self _) ?_
    rw [List.drop_left]
    exact ih fun a' ha' => hwrite a' (List.mem_cons_of_mem _ ha')

/-- The items cut from an input determine what is left of it. -/
theorem Cuts.unique {w b c : List β} {as : List α} (h : F.Cuts w as b) (h' : F.Cuts w as c) :
    b = c := by
  induction h with
  | nil b => cases h'; rfl
  | cons hf _ ih =>
    cases h' with
    | cons hf' rest' =>
      rw [hf] at hf'
      cases hf'
      exact ih rest'

/-- Of items written one after another some bytes have arrived: the front is open, which
it is of all the bytes only when no item is left, or it is the first item and the
others follow. -/
theorem front_of_written {write : α → List β} {as : List α} {b x : List β}
    (hwrite : ∀ a ∈ as, ∀ x, F.front (write a ++ x) = .item a (write a).length)
    (hempty : F.front [] = .more) (h : b ++ x = (as.map write).flatten) :
    (F.front b = .more ∧ (x = [] → as = [])) ∨
      ∃ a rest, as = a :: rest ∧ F.front b = .item a (write a).length ∧
        b.drop (write a).length ++ x = (rest.map write).flatten := by
  cases as with
  | nil =>
    rw [List.map_nil, List.flatten_nil, List.append_eq_nil_iff] at h
    rw [h.1]
    exact .inl ⟨hempty, fun _ => rfl⟩
  | cons a rest =>
    rw [List.map_cons, List.flatten_cons] at h
    have hwhole := hwrite a List.mem_cons_self (rest.map write).flatten
    rw [← h] at hwhole
    cases hb : F.front b with
    | more =>
      refine .inl ⟨rfl, fun hx => ?_⟩
      rw [hx, List.append_nil, hb] at hwhole
      cases hwhole
    | fail e =>
      rw [F.fail_append x hb] at hwhole
      cases hwhole
    | item a' n =>
      rw [F.item_append x hb] at hwhole
      cases hwhole
      refine .inr ⟨a, rest, rfl, rfl, ?_⟩
      rw [← List.drop_append_of_le_length (F.item_le hb), h, List.drop_left]

end Framing
end IndieWorker
