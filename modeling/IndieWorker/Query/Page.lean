import IndieWorker.Lib.Overflow
import Mathlib.Data.List.Nodup
import Mathlib.Data.List.Range

/-!
# Pages

`Page` of `src/query/mod.rs` and the walk of a caller through a table.
-/

namespace IndieWorker
namespace Query

def maxPageSize : UInt64 := 500

def defaultPageSize : UInt64 := 50

/-- A bounded page. -/
structure Page where
  limit : UInt64
  offset : UInt64
  bounded : 1 ≤ limit ∧ limit ≤ maxPageSize
  deriving DecidableEq

namespace Page

/-- `limit.clamp(1, MAX_PAGE_SIZE)`. -/
def clamp (limit : UInt64) : UInt64 := max 1 (min limit maxPageSize)

theorem clamp_toNat (limit : UInt64) : (clamp limit).toNat = max 1 (min limit.toNat 500) := by
  rw [clamp, max_toNat, min_toNat]
  rfl

def new (limit offset : UInt64) : Page where
  limit := clamp limit
  offset := offset
  bounded := by
    rw [UInt64.le_iff_toNat_le, UInt64.le_iff_toNat_le, clamp_toNat]
    show 1 ≤ max 1 (min limit.toNat 500) ∧ max 1 (min limit.toNat 500) ≤ 500
    omega

instance : Inhabited Page := ⟨⟨defaultPageSize, 0, by decide⟩⟩

/-- The next page, unless the page was short. -/
def next (page : Page) (returned : UInt64) : Option Page :=
  if returned ≥ page.limit then
    some { page with offset := saturatingAdd page.offset page.limit }
  else none

theorem limit_toNat (page : Page) : 1 ≤ page.limit.toNat ∧ page.limit.toNat ≤ 500 := by
  obtain ⟨hlow, hhigh⟩ := page.bounded
  rw [UInt64.le_iff_toNat_le] at hlow hhigh
  exact ⟨hlow, hhigh⟩

/-! ## The walk -/

/-- Where the rows of a page of a table of `total` rows end. -/
def stop (total : Nat) (page : Page) : Nat := min (page.offset.toNat + page.limit.toNat) total

/-- The rows of a page. -/
def rows (total : Nat) (page : Page) : List Nat :=
  List.range' page.offset.toNat (page.stop total - page.offset.toNat)

/-- The pages fetched from a page on, if the walk ends within some fetches. -/
def walk (total : Nat) : Nat → Page → Option (List Page)
  | 0, _ => none
  | fuel + 1, page =>
    match page.next (UInt64.ofNat (page.rows total).length) with
    | none => some [page]
    | some page' => (walk total fuel page').map (page :: ·)

section Walk

variable {total : Nat} {page : Page}

theorem length_rows (total : Nat) (page : Page) :
    (page.rows total).length = page.stop total - page.offset.toNat := List.length_range'

/-- The rows of a page are counted exactly. -/
theorem toNat_length_rows (total : Nat) (page : Page) :
    (UInt64.ofNat (page.rows total).length).toNat = page.stop total - page.offset.toNat := by
  have hlimit := page.limit_toNat
  rw [length_rows, UInt64.toNat_ofNat', stop]
  omega

/-- A short page is the last. -/
theorem next_short (h : total < page.offset.toNat + page.limit.toNat) :
    page.next (UInt64.ofNat (page.rows total).length) = none := by
  have hlimit := page.limit_toNat
  rw [next, if_neg]
  rw [ge_iff_le, UInt64.le_iff_toNat_le, toNat_length_rows, stop]
  omega

/-- After a full page comes the one that starts where it stops. -/
theorem next_full (h : page.offset.toNat + page.limit.toNat ≤ total) (hfits : total < 2 ^ 64) :
    ∃ page', page.next (UInt64.ofNat (page.rows total).length) = some page' ∧
      page'.limit = page.limit ∧ page'.offset.toNat = page.stop total := by
  refine ⟨{ page with offset := saturatingAdd page.offset page.limit }, ?_, rfl, ?_⟩
  · rw [next, if_pos]
    rw [ge_iff_le, UInt64.le_iff_toNat_le, toNat_length_rows, stop]
    omega
  · show (saturatingAdd page.offset page.limit).toNat = _
    rw [saturatingAdd_toNat, stop]
    omega

/-- What a walk from a page fetches. -/
structure Covers (total : Nat) (page : Page) (pages : List Page) : Prop where
  length : pages.length = (total - page.offset.toNat) / page.limit.toNat + 1
  head : pages.head? = some page
  consecutive : pages.IsChain fun p q => p.stop total = q.offset.toNat
  rows : pages.flatMap (rows total) = List.range' page.offset.toNat (total - page.offset.toNat)
  limit : ∀ p ∈ pages, p.limit = page.limit

theorem covers_last (h : total < page.offset.toNat + page.limit.toNat) :
    Covers total page [page] := by
  have hpos := page.limit_toNat.1
  refine ⟨?_, rfl, List.isChain_singleton _, ?_, ?_⟩
  · rw [Nat.div_eq_of_lt (by omega)]
    rfl
  · rw [List.flatMap_singleton, Page.rows, stop, Nat.min_eq_right h.le]
  · intro p hp
    rw [List.mem_singleton.mp hp]

theorem Covers.cons {page' : Page} {pages : List Page} (h : Covers total page' pages)
    (hfull : page.offset.toNat + page.limit.toNat ≤ total) (hlimit : page'.limit = page.limit)
    (hoffset : page'.offset.toNat = page.stop total) : Covers total page (page :: pages) := by
  have hpos := page.limit_toNat.1
  have hstop : page.stop total = page.offset.toNat + page.limit.toNat := Nat.min_eq_left hfull
  refine ⟨?_, rfl, ?_, ?_, ?_⟩
  · rw [List.length_cons, h.length, hlimit, hoffset, hstop,
      ← Nat.sub_sub, Nat.div_eq_sub_div (a := total - page.offset.toNat) hpos (by omega)]
  · rw [List.isChain_cons]
    refine ⟨fun q hq => ?_, h.consecutive⟩
    rw [h.head] at hq
    rw [← Option.some.inj hq, hoffset]
  · rw [List.flatMap_cons, h.rows, Page.rows, hoffset, hstop, Nat.add_sub_cancel_left]
    rw [List.range'_append_1]
    congr 1
    omega
  · intro p hp
    cases hp with
    | head => rfl
    | tail _ hp => exact (h.limit p hp).trans hlimit

/-- A walk of `k + 1` fetches, whatever more it is allowed. -/
theorem walk_covers (page : Page) (hfits : total < 2 ^ 64) {k : Nat}
    (hk : (total - page.offset.toNat) / page.limit.toNat = k) :
    ∃ pages, Covers total page pages ∧
      ∀ fuel, walk total fuel page = if k < fuel then some pages else none := by
  have hpos := page.limit_toNat.1
  induction k generalizing page with
  | zero =>
    have hshort : total < page.offset.toNat + page.limit.toNat := by
      have hlt := Nat.lt_of_div_eq_zero hpos hk
      omega
    refine ⟨[page], covers_last hshort, fun fuel => ?_⟩
    cases fuel with
    | zero => rfl
    | succ fuel =>
      rw [walk, next_short hshort, if_pos (Nat.succ_pos fuel)]
  | succ k ih =>
    have hle : page.limit.toNat ≤ total - page.offset.toNat := by
      by_contra hnot
      rw [Nat.div_eq_of_lt (by omega)] at hk
      omega
    have hfull : page.offset.toNat + page.limit.toNat ≤ total := by omega
    have hstop : page.stop total = page.offset.toNat + page.limit.toNat := Nat.min_eq_left hfull
    obtain ⟨page', hnext, hlimit, hoffset⟩ := next_full hfull hfits
    have hk' : (total - page'.offset.toNat) / page'.limit.toNat = k := by
      rw [Nat.div_eq_sub_div hpos hle] at hk
      rw [hlimit, hoffset, hstop, ← Nat.sub_sub]
      exact Nat.succ_injective hk
    obtain ⟨pages, hcovers, hwalk⟩ := ih page' hk' page'.limit_toNat.1
    refine ⟨page :: pages, hcovers.cons hfull hlimit hoffset, fun fuel => ?_⟩
    cases fuel with
    | zero => rfl
    | succ fuel =>
      rw [walk, hnext]
      dsimp only
      rw [hwalk fuel]
      by_cases hfuel : k < fuel
      · rw [if_pos hfuel, if_pos (Nat.succ_lt_succ hfuel)]
        rfl
      · rw [if_neg hfuel, if_neg (fun h => hfuel (Nat.lt_of_succ_lt_succ h))]
        rfl

/-- A caller who starts at the first row and stops at the first short page has
fetched every row once. -/
theorem walk_visits_every_row_once (limit : UInt64) {total : Nat}
    (htotal : total + maxPageSize.toNat ≤ 2 ^ 64 - 1) :
    ∃ pages,
      (∀ fuel, walk total fuel (new limit 0) =
        if total / (new limit 0).limit.toNat + 1 ≤ fuel then some pages else none) ∧
      pages.length = total / (new limit 0).limit.toNat + 1 ∧
      pages.head? = some (new limit 0) ∧
      (pages.IsChain fun p q => p.stop total = q.offset.toNat) ∧
      (pages.Pairwise fun p q => (p.rows total).Disjoint (q.rows total)) ∧
      pages.flatMap (rows total) = List.range total ∧
      ∀ p ∈ pages, 1 ≤ p.limit.toNat ∧ p.limit.toNat ≤ maxPageSize.toNat := by
  have hfits : total < 2 ^ 64 := by
    have hmax : maxPageSize.toNat = 500 := rfl
    omega
  have hzero : (new limit 0).offset.toNat = 0 := rfl
  obtain ⟨pages, hcovers, hwalk⟩ := walk_covers (new limit 0) hfits rfl
  rw [hzero, Nat.sub_zero] at hwalk
  have hlength := hcovers.length
  have hrows := hcovers.rows
  rw [hzero, Nat.sub_zero] at hlength hrows
  rw [← List.range_eq_range'] at hrows
  have hnodup : (pages.flatMap (rows total)).Nodup := by
    rw [hrows]
    exact List.nodup_range
  refine ⟨pages, hwalk, hlength, hcovers.head, hcovers.consecutive,
    (List.nodup_flatMap.mp hnodup).2, hrows, fun p _ => p.limit_toNat⟩

/-- A table of five rows, two at a time. -/
theorem walk_five_rows : ∃ pages, walk 5 3 (new 2 0) = some pages ∧
    pages.flatMap (rows 5) = [0, 1, 2, 3, 4] := by
  have htotal : 5 + maxPageSize.toNat ≤ 2 ^ 64 - 1 := by decide
  obtain ⟨pages, hwalk, -, -, -, -, hrows, -⟩ := walk_visits_every_row_once 2 htotal
  refine ⟨pages, ?_, hrows⟩
  rw [hwalk 3]
  rfl

end Walk

end Page
end Query
end IndieWorker
