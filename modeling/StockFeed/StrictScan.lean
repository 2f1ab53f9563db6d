import Mathlib.Order.Bounds.Basic
import Mathlib.Data.List.Induction

/-!
# Scanning for a first strict minimum

A scan keeps a bound and the item which set it, and replaces both whenever an
item has a smaller value.  Items may have no value at all.  Whatever "smaller"
is, an item is kept at the end if one is below the initial bound.  In a linear
order the bound is then the least of the initial bound and all values, and the
kept item is the first one which attains it.
-/

namespace StockFeed
namespace StrictScan

variable {ι V : Type}

section Comparison

variable [LT V] [DecidableLT V]

def step (value : ι → Option V) (best : V × Option ι) (item : ι) :
    V × Option ι :=
  match value item with
  | none => best
  | some v => if v < best.1 then (v, some item) else best

def scan (value : ι → Option V) (bound : V) (items : List ι) : V × Option ι :=
  items.foldl (step value) (bound, none)

/-- A scan which has not kept anything is still at its initial bound. -/
theorem scan_kept_or_start
    (value : ι → Option V) (bound : V) (items : List ι) :
    scan value bound items = (bound, none) ∧
        (∀ item ∈ items, ∀ v, value item = some v → ¬ v < bound) ∨
      (∃ item ∈ items, (scan value bound items).2 = some item) ∧
        ∃ item ∈ items, ∃ v, value item = some v ∧ v < bound := by
  induction items using List.reverseRecOn with
  | nil => exact Or.inl ⟨rfl, by simp⟩
  | append_singleton items item ih =>
      have hmem : item ∈ items ++ [item] := by simp
      rw [scan, List.foldl_append, ← scan, List.foldl_cons, List.foldl_nil]
      rcases ih with ⟨hstart, hnone⟩ | ⟨⟨kept, hkept, hscan⟩, hbelow⟩
      · rw [hstart, step]
        cases hvalue : value item with
        | none =>
            refine Or.inl ⟨rfl, ?_⟩
            intro other hother v hv
            rw [List.mem_append, List.mem_singleton] at hother
            rcases hother with hold | rfl
            · exact hnone other hold v hv
            · rw [hvalue] at hv
              exact absurd hv.symm (Option.some_ne_none v)
        | some w =>
            simp only
            split_ifs with hlt
            · exact Or.inr ⟨⟨item, hmem, rfl⟩, item, hmem, w, hvalue, hlt⟩
            · refine Or.inl ⟨rfl, ?_⟩
              intro other hother v hv
              rw [List.mem_append, List.mem_singleton] at hother
              rcases hother with hold | rfl
              · exact hnone other hold v hv
              · rw [hvalue, Option.some.injEq] at hv
                exact hv ▸ hlt
      · right
        obtain ⟨other, hother, v, hv, hlt⟩ := hbelow
        refine ⟨?_, other, List.mem_append_left _ hother, v, hv, hlt⟩
        have hold := List.mem_append_left [item] hkept
        rw [step]
        cases value item with
        | none => exact ⟨kept, hold, hscan⟩
        | some w =>
            simp only
            split_ifs
            · exact ⟨item, hmem, rfl⟩
            · exact ⟨kept, hold, hscan⟩

theorem scan_kept_mem
    {value : ι → Option V} {bound : V} {items : List ι} {item : ι}
    (hkept : (scan value bound items).2 = some item) : item ∈ items := by
  rcases scan_kept_or_start value bound items with
    ⟨hstart, _⟩ | ⟨⟨kept, hmem, hscan⟩, _⟩
  · rw [hstart] at hkept
    exact absurd hkept.symm (Option.some_ne_none item)
  · rw [hscan, Option.some.injEq] at hkept
    exact hkept ▸ hmem

/-- An item is kept as soon as one has a value below the initial bound. -/
theorem scan_kept_iff
    {value : ι → Option V} {bound : V} {items : List ι} :
    (∃ item, (scan value bound items).2 = some item) ↔
      ∃ item ∈ items, ∃ v, value item = some v ∧ v < bound := by
  rcases scan_kept_or_start value bound items with
    ⟨hstart, hnone⟩ | ⟨⟨kept, _, hscan⟩, hbelow⟩
  · rw [hstart]
    constructor
    · rintro ⟨item, hkept⟩
      exact absurd hkept.symm (Option.some_ne_none item)
    · rintro ⟨item, hitem, v, hv, hlt⟩
      exact absurd hlt (hnone item hitem v hv)
  · exact iff_of_true ⟨kept, hscan⟩ hbelow

end Comparison

section Order

variable [LinearOrder V]

/-- `best` after the items: a lower bound, and either the initial bound or the
value of an item whose predecessors all have larger values. -/
structure Scanned (value : ι → Option V) (bound : V) (items : List ι)
    (best : V × Option ι) : Prop where
  le_bound : best.1 ≤ bound
  le_value : ∀ item ∈ items, ∀ v, value item = some v → best.1 ≤ v
  attained : best = (bound, none) ∨
    ∃ first item rest, items = first ++ item :: rest ∧
      best.2 = some item ∧ value item = some best.1 ∧ best.1 < bound ∧
      ∀ earlier ∈ first, ∀ v, value earlier = some v → best.1 < v

theorem Scanned.keep
    {value : ι → Option V} {bound : V} {items : List ι} {best : V × Option ι}
    (hscanned : Scanned value bound items best) {item : ι}
    (hitem : ∀ v, value item = some v → best.1 ≤ v) :
    Scanned value bound (items ++ [item]) best := by
  refine ⟨hscanned.le_bound, ?_, ?_⟩
  · intro other hother v hv
    rw [List.mem_append, List.mem_singleton] at hother
    rcases hother with hold | rfl
    · exact hscanned.le_value other hold v hv
    · exact hitem v hv
  · rcases hscanned.attained with hstart |
      ⟨first, kept, rest, rfl, hkept, hvalue, hlt, hearlier⟩
    · exact Or.inl hstart
    · right
      exact ⟨first, kept, rest ++ [item], by simp, hkept, hvalue, hlt,
        hearlier⟩

theorem Scanned.replace
    {value : ι → Option V} {bound : V} {items : List ι} {best : V × Option ι}
    (hscanned : Scanned value bound items best) {item : ι} {v : V}
    (hvalue : value item = some v) (hlt : v < best.1) :
    Scanned value bound (items ++ [item]) (v, some item) := by
  refine ⟨hlt.le.trans hscanned.le_bound, ?_, Or.inr ?_⟩
  · intro other hother w hw
    rw [List.mem_append, List.mem_singleton] at hother
    rcases hother with hold | rfl
    · exact hlt.le.trans (hscanned.le_value other hold w hw)
    · rw [hvalue, Option.some.injEq] at hw
      exact hw.le
  · refine ⟨items, item, [], rfl, rfl, hvalue,
      hlt.trans_le hscanned.le_bound, ?_⟩
    intro earlier hearlier w hw
    exact hlt.trans_le (hscanned.le_value earlier hearlier w hw)

theorem scanned_scan (value : ι → Option V) (bound : V) (items : List ι) :
    Scanned value bound items (scan value bound items) := by
  induction items using List.reverseRecOn with
  | nil => exact ⟨le_rfl, by simp, Or.inl rfl⟩
  | append_singleton items item ih =>
      rw [scan, List.foldl_append, ← scan, List.foldl_cons, List.foldl_nil,
        step]
      cases hvalue : value item with
      | none => exact ih.keep (by simp [hvalue])
      | some v =>
          simp only
          by_cases hlt : v < (scan value bound items).1
          · rw [if_pos hlt]
            exact ih.replace hvalue hlt
          · rw [if_neg hlt]
            apply ih.keep
            intro w hw
            rw [hvalue, Option.some.injEq] at hw
            exact hw ▸ not_lt.mp hlt

theorem Scanned.isLeast
    {value : ι → Option V} {bound : V} {items : List ι} {best : V × Option ι}
    (hscanned : Scanned value bound items best) :
    IsLeast ({bound} ∪ {v | ∃ item ∈ items, value item = some v}) best.1 := by
  constructor
  · rcases hscanned.attained with hstart |
      ⟨first, kept, rest, rfl, _, hvalue, _, _⟩
    · exact Or.inl (congrArg Prod.fst hstart)
    · exact Or.inr ⟨kept, by simp, hvalue⟩
  · rintro v (rfl | ⟨item, hitem, hv⟩)
    · exact hscanned.le_bound
    · exact hscanned.le_value item hitem v hv

/-- In a list sorted by `r`, the kept item comes before every other one with
the same value. -/
theorem Scanned.first
    {value : ι → Option V} {bound : V} {items : List ι} {best : V × Option ι}
    (hscanned : Scanned value bound items best) (hlt : best.1 < bound)
    {r : ι → ι → Prop} (hsorted : items.Pairwise r) :
    ∃ item ∈ items, best.2 = some item ∧ value item = some best.1 ∧
      ∀ other ∈ items, value other = some best.1 → other = item ∨ r item other := by
  rcases hscanned.attained with hstart |
    ⟨first, kept, rest, rfl, hkept, hvalue, _, hearlier⟩
  · rw [hstart] at hlt
    exact absurd hlt (lt_irrefl bound)
  · refine ⟨kept, by simp, hkept, hvalue, ?_⟩
    intro other hother hsame
    rw [List.mem_append, List.mem_cons] at hother
    rcases hother with hbefore | heq | hafter
    · exact absurd (hearlier other hbefore _ hsame) (lt_irrefl _)
    · exact Or.inl heq
    · rw [List.pairwise_append, List.pairwise_cons] at hsorted
      exact Or.inr (hsorted.2.1.1 other hafter)

end Order

end StrictScan
end StockFeed
