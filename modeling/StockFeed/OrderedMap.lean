import Mathlib.Order.Defs.LinearOrder
import Mathlib.Data.List.Sort

/-!
# Ordered maps with an interruptible in-place traversal

A finite map kept as a list of entries in strictly increasing key order, the
way a red-black tree is iterated.  Besides lookup and `upsert` (a subscript
which creates a missing entry) it offers `visit`: a traversal in key order
which may rewrite each value it passes, may stop early, and may fail.  The
lemmas describe every operation through `find?`, so that a client never has
to look at the entry list.
-/

namespace StockFeed

/-- A finite map whose entries are listed in strictly increasing key order. -/
structure OrderedMap (κ ν : Type) [LinearOrder κ] where
  entries : List (κ × ν)
  sorted : (entries.map Prod.fst).Pairwise (· < ·)

namespace OrderedMap

variable {κ ν : Type} [LinearOrder κ]

instance [DecidableEq ν] : DecidableEq (OrderedMap κ ν) := fun m m' =>
  decidable_of_iff (m.entries = m'.entries) (by
    cases m
    cases m'
    simp)

def empty : OrderedMap κ ν where
  entries := []
  sorted := List.Pairwise.nil

def keys (m : OrderedMap κ ν) : List κ :=
  m.entries.map Prod.fst

def findEntry (k : κ) : List (κ × ν) → Option ν
  | [] => none
  | (key, value) :: rest => if k = key then some value else findEntry k rest

def find? (m : OrderedMap κ ν) (k : κ) : Option ν :=
  findEntry k m.entries

theorem keys_nodup (m : OrderedMap κ ν) : m.keys.Nodup :=
  m.sorted.imp ne_of_lt

/-! ## Lookup -/

theorem findEntry_eq_some_iff
    {entries : List (κ × ν)} (hnodup : (entries.map Prod.fst).Nodup)
    (k : κ) (v : ν) :
    findEntry k entries = some v ↔ (k, v) ∈ entries := by
  induction entries with
  | nil => simp [findEntry]
  | cons entry rest ih =>
      rcases entry with ⟨key, value⟩
      rw [List.map_cons, List.nodup_cons] at hnodup
      unfold findEntry
      split_ifs with hkey
      · subst hkey
        have hfresh : (k, v) ∉ rest := fun hmem =>
          hnodup.1 (List.mem_map.mpr ⟨(k, v), hmem, rfl⟩)
        simp [hfresh, eq_comm]
      · simp [hkey, ih hnodup.2]

theorem findEntry_cons_self (key : κ) (value : ν) (rest : List (κ × ν)) :
    findEntry key ((key, value) :: rest) = some value :=
  if_pos rfl

theorem findEntry_cons_of_ne
    {k key : κ} (hne : k ≠ key) {value : ν} {rest : List (κ × ν)} :
    findEntry k ((key, value) :: rest) = findEntry k rest :=
  if_neg hne

theorem findEntry_eq_none_of_lt
    {k : κ} {entries : List (κ × ν)}
    (hlt : ∀ key ∈ entries.map Prod.fst, k < key) :
    findEntry k entries = none := by
  induction entries with
  | nil => rfl
  | cons entry rest ih =>
      rcases entry with ⟨key, value⟩
      rw [List.map_cons, List.forall_mem_cons] at hlt
      simp only [findEntry, if_neg hlt.1.ne]
      exact ih hlt.2

theorem find?_eq_some_iff (m : OrderedMap κ ν) (k : κ) (v : ν) :
    m.find? k = some v ↔ (k, v) ∈ m.entries :=
  findEntry_eq_some_iff m.keys_nodup k v

theorem find?_isSome_iff (m : OrderedMap κ ν) (k : κ) :
    (m.find? k).isSome ↔ k ∈ m.keys := by
  rw [Option.isSome_iff_exists]
  simp only [find?_eq_some_iff, keys, List.mem_map, Prod.exists]
  constructor
  · rintro ⟨v, hmem⟩
    exact ⟨k, v, hmem, rfl⟩
  · rintro ⟨key, v, hmem, rfl⟩
    exact ⟨v, hmem⟩

theorem exists_find?_of_mem_keys
    {m : OrderedMap κ ν} {k : κ} (hk : k ∈ m.keys) :
    ∃ v, m.find? k = some v :=
  Option.isSome_iff_exists.mp ((m.find?_isSome_iff k).mpr hk)

theorem mem_keys_of_find?
    {m : OrderedMap κ ν} {k : κ} {v : ν} (hfind : m.find? k = some v) :
    k ∈ m.keys :=
  (m.find?_isSome_iff k).mp (by simp [hfind])

theorem ext_find?
    {m m' : OrderedMap κ ν} (hfind : ∀ k, m.find? k = m'.find? k) :
    m = m' := by
  have hmem : ∀ entry, entry ∈ m.entries ↔ entry ∈ m'.entries := by
    rintro ⟨k, v⟩
    rw [← find?_eq_some_iff, ← find?_eq_some_iff, hfind]
  have hpairs : ∀ m₀ : OrderedMap κ ν,
      m₀.entries.Pairwise (fun a b => a.1 < b.1) :=
    fun m₀ => List.pairwise_map.mp m₀.sorted
  have hperm : m.entries.Perm m'.entries :=
    (List.perm_ext_iff_of_nodup
      ((hpairs m).imp fun hlt heq => absurd (congrArg Prod.fst heq) hlt.ne)
      ((hpairs m').imp fun hlt heq => absurd (congrArg Prod.fst heq) hlt.ne)).mpr
      hmem
  have heq : m.entries = m'.entries :=
    hperm.eq_of_pairwise
      (fun _ _ _ _ hab hba => absurd hab (not_lt.mpr hba.le))
      (hpairs m) (hpairs m')
  cases m
  cases m'
  simpa using heq

/-! ## Subscript update -/

/-- Entry list of `upsert`: rewrite the entry of `k`, creating it in its
place when it is missing. -/
def upsertEntries (k : κ) (f : Option ν → ν) : List (κ × ν) → List (κ × ν)
  | [] => [(k, f none)]
  | (key, value) :: rest =>
      if k < key then (k, f none) :: (key, value) :: rest
      else if k = key then (k, f (some value)) :: rest
      else (key, value) :: upsertEntries k f rest

theorem mem_keys_upsertEntries
    (k key : κ) (f : Option ν → ν) (entries : List (κ × ν)) :
    key ∈ (upsertEntries k f entries).map Prod.fst ↔
      key = k ∨ key ∈ entries.map Prod.fst := by
  induction entries with
  | nil => simp [upsertEntries]
  | cons entry rest ih =>
      rcases entry with ⟨head, value⟩
      unfold upsertEntries
      split_ifs with hlt heq
      · simp
      · subst heq
        simp
      · rw [List.map_cons, List.mem_cons, ih, List.map_cons, List.mem_cons]
        tauto

theorem upsertEntries_sorted
    (k : κ) (f : Option ν → ν) {entries : List (κ × ν)}
    (hsorted : (entries.map Prod.fst).Pairwise (· < ·)) :
    ((upsertEntries k f entries).map Prod.fst).Pairwise (· < ·) := by
  induction entries with
  | nil => simp [upsertEntries]
  | cons entry rest ih =>
      rcases entry with ⟨head, value⟩
      rw [List.map_cons, List.pairwise_cons] at hsorted
      unfold upsertEntries
      split_ifs with hlt heq
      · simp only [List.map_cons, List.pairwise_cons, List.mem_cons]
        refine ⟨?_, hsorted.1, hsorted.2⟩
        rintro key (rfl | hmem)
        · exact hlt
        · exact hlt.trans (hsorted.1 key hmem)
      · subst heq
        rw [List.map_cons, List.pairwise_cons]
        exact hsorted
      · rw [List.map_cons, List.pairwise_cons]
        refine ⟨?_, ih hsorted.2⟩
        intro key hmem
        rcases (mem_keys_upsertEntries k key f rest).mp hmem with rfl | hrest
        · exact lt_of_le_of_ne (not_lt.mp hlt) (Ne.symm heq)
        · exact hsorted.1 key hrest

/-- `m[k]` used as an assignable place: the value of `k` becomes `f` of the
value it has, if any. -/
def upsert (m : OrderedMap κ ν) (k : κ) (f : Option ν → ν) :
    OrderedMap κ ν where
  entries := upsertEntries k f m.entries
  sorted := upsertEntries_sorted k f m.sorted

theorem findEntry_upsertEntries
    (k key : κ) (f : Option ν → ν) {entries : List (κ × ν)}
    (hsorted : (entries.map Prod.fst).Pairwise (· < ·)) :
    findEntry key (upsertEntries k f entries) =
      if key = k then some (f (findEntry k entries))
      else findEntry key entries := by
  induction entries with
  | nil => simp [upsertEntries, findEntry]
  | cons entry rest ih =>
      rcases entry with ⟨head, value⟩
      rw [List.map_cons, List.pairwise_cons] at hsorted
      unfold upsertEntries
      by_cases hlt : k < head
      · have hnone : findEntry k ((head, value) :: rest) = none := by
          apply findEntry_eq_none_of_lt
          rw [List.map_cons, List.forall_mem_cons]
          exact ⟨hlt, fun other hother => hlt.trans (hsorted.1 other hother)⟩
        rw [if_pos hlt, hnone]
        rfl
      · rw [if_neg hlt]
        by_cases heq : k = head
        · subst heq
          by_cases hkey : key = k <;> simp [findEntry, hkey]
        · rw [if_neg heq]
          by_cases hhead : key = head
          · subst hhead
            simp [findEntry, Ne.symm heq]
          · simp only [findEntry, if_neg hhead, if_neg heq]
            exact ih hsorted.2

theorem find?_upsert (m : OrderedMap κ ν) (k key : κ) (f : Option ν → ν) :
    (m.upsert k f).find? key =
      if key = k then some (f (m.find? k)) else m.find? key :=
  findEntry_upsertEntries k key f m.sorted

theorem keys_eq_of_mem_iff
    {m m' : OrderedMap κ ν} (hmem : ∀ k, k ∈ m.keys ↔ k ∈ m'.keys) :
    m.keys = m'.keys :=
  ((List.perm_ext_iff_of_nodup m.keys_nodup m'.keys_nodup).mpr
    hmem).eq_of_pairwise
    (fun _ _ _ _ hab hba => absurd hab (not_lt.mpr hba.le)) m.sorted m'.sorted

theorem mem_keys_upsert (m : OrderedMap κ ν) (k key : κ) (f : Option ν → ν) :
    key ∈ (m.upsert k f).keys ↔ key = k ∨ key ∈ m.keys :=
  mem_keys_upsertEntries k key f m.entries

theorem keys_upsert_of_mem
    {m : OrderedMap κ ν} {k : κ} (hk : k ∈ m.keys) (f : Option ν → ν) :
    (m.upsert k f).keys = m.keys := by
  apply keys_eq_of_mem_iff
  intro key
  rw [mem_keys_upsert]
  constructor
  · rintro (rfl | hmem)
    · exact hk
    · exact hmem
  · exact Or.inr

/-! ## Interruptible traversal -/

def visitEntries (body : ν → Option (ForInStep ν)) :
    (entries : List (κ × ν)) →
      Option ({ visited : List (κ × ν) //
        visited.map Prod.fst = entries.map Prod.fst } × Bool)
  | [] => some (⟨[], rfl⟩, true)
  | (key, value) :: rest =>
      match body value with
      | none => none
      | some (.done v) => some (⟨(key, v) :: rest, rfl⟩, false)
      | some (.yield v) =>
          match visitEntries body rest with
          | none => none
          | some (visited, finished) =>
              some (⟨(key, v) :: visited.1, by simp [visited.2]⟩, finished)

/-- Pass over the values in key order.  `body` either fails, or rewrites the
value and goes on (`yield`), or rewrites it and leaves the loop (`done`).
The Boolean tells whether the loop ran to its end. -/
def visit (m : OrderedMap κ ν) (body : ν → Option (ForInStep ν)) :
    Option (OrderedMap κ ν × Bool) :=
  (visitEntries body m.entries).map fun (visited, finished) =>
    (⟨visited.1, by rw [visited.2]; exact m.sorted⟩, finished)

/-- What one traversal did to the entries.  Either every body yielded, or
there is a first key whose body asked to stop: the bodies before it yielded,
and nothing behind it was touched. -/
structure VisitSpec (body : ν → Option (ForInStep ν))
    (before after : κ → Option ν) (finished : Bool) : Prop where
  yielded : finished = true → ∀ k v, before k = some v →
    ∃ v', body v = some (.yield v') ∧ after k = some v'
  stopped : finished = false → ∃ k v v', before k = some v ∧
    body v = some (.done v') ∧ after k = some v' ∧
    (∀ k' < k, ∀ v, before k' = some v →
      ∃ v', body v = some (.yield v') ∧ after k' = some v') ∧
    ∀ k', k < k' → after k' = before k'

section VisitCons

variable {body : ν → Option (ForInStep ν)} {key : κ} {value v : ν}
  {rest : List (κ × ν)}
  (hbehind : ∀ other ∈ rest.map Prod.fst, key < other)

include hbehind

theorem VisitSpec.done_cons (hbody : body value = some (.done v)) :
    VisitSpec body (fun k => findEntry k ((key, value) :: rest))
      (fun k => findEntry k ((key, v) :: rest)) false := by
  refine ⟨by simp, fun _ => ⟨key, value, v, findEntry_cons_self key value rest,
    hbody, findEntry_cons_self key v rest, ?_, ?_⟩⟩
  · intro k hk old hold
    have hnone : findEntry k ((key, value) :: rest) = none := by
      apply findEntry_eq_none_of_lt
      rw [List.map_cons, List.forall_mem_cons]
      exact ⟨hk, fun other hother => hk.trans (hbehind other hother)⟩
    rw [hnone] at hold
    simp at hold
  · intro k hk
    rw [findEntry_cons_of_ne hk.ne', findEntry_cons_of_ne hk.ne']

theorem VisitSpec.yield_cons
    {tail : List (κ × ν)} {finished : Bool}
    (hbody : body value = some (.yield v))
    (htail : VisitSpec body (fun k => findEntry k rest)
      (fun k => findEntry k tail) finished) :
    VisitSpec body (fun k => findEntry k ((key, value) :: rest))
      (fun k => findEntry k ((key, v) :: tail)) finished := by
  -- What is known of the entries of `rest` holds of the first one as well.
  have hfront : ∀ k, (∀ old, findEntry k rest = some old →
        ∃ new, body old = some (.yield new) ∧ findEntry k tail = some new) →
      ∀ old, findEntry k ((key, value) :: rest) = some old →
        ∃ new, body old = some (.yield new) ∧
          findEntry k ((key, v) :: tail) = some new := by
    intro k hrest old hold
    by_cases hk : k = key
    · subst hk
      rw [findEntry_cons_self, Option.some.injEq] at hold
      subst hold
      exact ⟨v, hbody, findEntry_cons_self k v tail⟩
    · rw [findEntry_cons_of_ne hk] at hold ⊢
      exact hrest old hold
  constructor
  · intro hended k
    exact hfront k (htail.yielded hended k)
  · intro hended
    rcases htail.stopped hended with
      ⟨k, old, new, hold, hdone, hnew, hyielded, hback⟩
    have hk : key < k := by
      by_contra hle
      have hnone : findEntry k rest = none := by
        apply findEntry_eq_none_of_lt
        intro other hother
        exact (not_lt.mp hle).trans_lt (hbehind other hother)
      simp [hnone] at hold
    refine ⟨k, old, new, ?_, hdone, ?_, ?_, ?_⟩
    · rw [findEntry_cons_of_ne hk.ne']
      exact hold
    · rw [findEntry_cons_of_ne hk.ne']
      exact hnew
    · intro k' hk'
      exact hfront k' (hyielded k' hk')
    · intro k' hk'
      rw [findEntry_cons_of_ne (hk.trans hk').ne',
        findEntry_cons_of_ne (hk.trans hk').ne']
      exact hback k' hk'

end VisitCons

theorem visitEntries_spec
    {body : ν → Option (ForInStep ν)} {entries : List (κ × ν)}
    (hsorted : (entries.map Prod.fst).Pairwise (· < ·))
    {visited : { visited : List (κ × ν) //
      visited.map Prod.fst = entries.map Prod.fst }} {finished : Bool}
    (hvisit : visitEntries body entries = some (visited, finished)) :
    VisitSpec body (fun k => findEntry k entries)
      (fun k => findEntry k visited.1) finished := by
  induction entries generalizing finished with
  | nil =>
      simp only [visitEntries, Option.some.injEq, Prod.mk.injEq] at hvisit
      rcases hvisit with ⟨rfl, rfl⟩
      constructor <;> simp [findEntry]
  | cons entry rest ih =>
      rcases entry with ⟨key, value⟩
      rw [List.map_cons, List.pairwise_cons] at hsorted
      unfold visitEntries at hvisit
      cases hbody : body value with
      | none => simp [hbody] at hvisit
      | some step =>
          cases step with
          | done v =>
              simp only [hbody, Option.some.injEq, Prod.mk.injEq] at hvisit
              rcases hvisit with ⟨rfl, rfl⟩
              exact VisitSpec.done_cons hsorted.1 hbody
          | yield v =>
              cases hrest : visitEntries body rest with
              | none => simp [hbody, hrest] at hvisit
              | some result =>
                  rcases result with ⟨tail, ended⟩
                  simp only [hbody, hrest, Option.some.injEq,
                    Prod.mk.injEq] at hvisit
                  rcases hvisit with ⟨rfl, rfl⟩
                  exact VisitSpec.yield_cons hsorted.1 hbody
                    (ih hsorted.2 hrest)

theorem visit_spec
    {m m' : OrderedMap κ ν} {body : ν → Option (ForInStep ν)}
    {finished : Bool} (hvisit : m.visit body = some (m', finished)) :
    m'.keys = m.keys ∧ VisitSpec body m.find? m'.find? finished := by
  unfold visit at hvisit
  rcases Option.map_eq_some_iff.mp hvisit with
    ⟨⟨visited, ended⟩, hentries, heq⟩
  simp only [Prod.mk.injEq] at heq
  rcases heq with ⟨rfl, rfl⟩
  exact ⟨visited.2, visitEntries_spec m.sorted hentries⟩

omit [LinearOrder κ] in
theorem visitEntries_isSome
    {body : ν → Option (ForInStep ν)} {entries : List (κ × ν)}
    (hbody : ∀ entry ∈ entries, (body entry.2).isSome) :
    (visitEntries body entries).isSome := by
  induction entries with
  | nil => rfl
  | cons entry rest ih =>
      rcases entry with ⟨key, value⟩
      rw [List.forall_mem_cons] at hbody
      obtain ⟨step, hstep⟩ := Option.isSome_iff_exists.mp hbody.1
      obtain ⟨result, hrest⟩ := Option.isSome_iff_exists.mp (ih hbody.2)
      unfold visitEntries
      cases step <;> simp [hstep, hrest]

theorem visit_isSome
    {m : OrderedMap κ ν} {body : ν → Option (ForInStep ν)}
    (hbody : ∀ k v, m.find? k = some v → (body v).isSome) :
    (m.visit body).isSome := by
  unfold visit
  rw [Option.isSome_map]
  apply visitEntries_isSome
  rintro ⟨k, v⟩ hmem
  exact hbody k v ((m.find?_eq_some_iff k v).mpr hmem)

end OrderedMap
end StockFeed
