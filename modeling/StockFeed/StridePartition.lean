import Mathlib.Algebra.BigOperators.Group.List.Basic
import Mathlib.Data.List.Range
import Mathlib.Tactic

/-!
# Residue classes of a range

Walkers start at the positions below `stride` and each walks on in steps of
`stride` until it leaves `range length`.  Between them they pass every position
once.  The starting positions themselves may be arranged in rows, as
`column + row * width`.
-/

namespace StockFeed
namespace StridePartition

/-- Positions below `length` which a walker passes from `start` on. -/
def positions (length stride start : ℕ) : List ℕ :=
  List.range' start ((length - start + stride - 1) / stride) stride

variable {length stride : ℕ}

theorem positions_of_ge (hstride : 0 < stride) {start : ℕ}
    (hge : length ≤ start) : positions length stride start = [] := by
  have hnone : (length - start + stride - 1) / stride = 0 := by
    rw [Nat.sub_eq_zero_of_le hge]
    exact Nat.div_eq_of_lt (by omega)
  rw [positions, hnone, List.range'_zero]

theorem positions_of_lt (hstride : 0 < stride) {start : ℕ}
    (hlt : start < length) :
    positions length stride start =
      start :: positions length stride (start + stride) := by
  have hcount : (length - start + stride - 1) / stride =
      (length - (start + stride) + stride - 1) / stride + 1 := by
    rcases Nat.lt_or_ge (start + stride) length with hmore | hlast
    · rw [← Nat.add_div_right _ hstride]
      congr 1
      omega
    · rw [Nat.sub_eq_zero_of_le hlast, Nat.zero_add,
        Nat.div_eq_of_lt (Nat.sub_one_lt hstride.ne')]
      exact Nat.div_eq_of_lt_le (by omega) (by omega)
  rw [positions, hcount, List.range'_succ, ← positions]

theorem mem_positions (hstride : 0 < stride) {start k : ℕ} :
    k ∈ positions length stride start ↔
      k < length ∧ start ≤ k ∧ k % stride = start % stride := by
  have hcount : ∀ i, i < (length - start + stride - 1) / stride ↔
      stride * i < length - start := by
    intro i
    rw [Nat.lt_iff_add_one_le, Nat.le_div_iff_mul_le hstride, Nat.add_mul,
      Nat.mul_comm i, Nat.one_mul]
    omega
  rw [positions, List.mem_range']
  constructor
  · rintro ⟨i, hi, rfl⟩
    rw [hcount] at hi
    exact ⟨by omega, by omega, Nat.add_mul_mod_self_left _ _ _⟩
  · rintro ⟨hk, hge, hmod⟩
    obtain ⟨i, hi⟩ : stride ∣ k - start :=
      (Nat.modEq_iff_dvd' hge).mp (Nat.ModEq.symm hmod)
    exact ⟨i, (hcount i).mpr (by omega), by omega⟩

theorem nodup_positions (hstride : 0 < stride) (start : ℕ) :
    (positions length stride start).Nodup :=
  List.nodup_range' stride hstride

/-- The walkers from all starting positions pass every position once. -/
theorem flatMap_positions_perm (hstride : 0 < stride) (length : ℕ) :
    ((List.range stride).flatMap (positions length stride)).Perm
      (List.range length) := by
  rw [List.perm_ext_iff_of_nodup _ List.nodup_range]
  · intro k
    rw [List.mem_flatMap, List.mem_range]
    constructor
    · rintro ⟨start, _, hk⟩
      exact ((mem_positions hstride).mp hk).1
    · intro hk
      refine ⟨k % stride, List.mem_range.mpr (Nat.mod_lt k hstride), ?_⟩
      exact (mem_positions hstride).mpr
        ⟨hk, Nat.mod_le k stride, (Nat.mod_mod k stride).symm⟩
  · rw [List.nodup_flatMap]
    refine ⟨fun start _ => nodup_positions hstride start, ?_⟩
    refine List.nodup_range.imp_of_mem ?_
    intro first second hfirst hsecond hne k hk1 hk2
    rw [List.mem_range] at hfirst hsecond
    have hmod1 := ((mem_positions hstride).mp hk1).2.2
    have hmod2 := ((mem_positions hstride).mp hk2).2.2
    rw [Nat.mod_eq_of_lt hfirst] at hmod1
    rw [Nat.mod_eq_of_lt hsecond] at hmod2
    exact hne (hmod1.symm.trans hmod2)

/-- The starting positions, row by row. -/
theorem flatMap_rows (rows width : ℕ) :
    ((List.range rows).flatMap fun row =>
      (List.range width).map fun column => column + row * width) =
      List.range (width * rows) := by
  induction rows with
  | zero => rfl
  | succ rows ih =>
      rw [List.range_succ, List.flatMap_append, ih, List.flatMap_singleton,
        Nat.mul_succ, List.range_add]
      congr 1
      apply List.map_congr_left
      intro column _
      rw [Nat.add_comm, Nat.mul_comm]

/-- Walkers started row by row pass every position once as well. -/
theorem flatMap_rows_positions_perm
    {rows width : ℕ} (hrows : 0 < rows) (hwidth : 0 < width) (length : ℕ) :
    ((List.range rows).flatMap fun row =>
      (List.range width).flatMap fun column =>
        positions length (width * rows) (column + row * width)).Perm
      (List.range length) := by
  have hregroup : ((List.range rows).flatMap fun row =>
      (List.range width).flatMap fun column =>
        positions length (width * rows) (column + row * width)) =
      (List.range (width * rows)).flatMap (positions length (width * rows)) := by
    rw [← flatMap_rows, List.flatMap_assoc]
    simp only [List.flatMap_map]
  rw [hregroup]
  exact flatMap_positions_perm (Nat.mul_pos hwidth hrows) length

theorem sum_flatMap_range
    {M : Type*} [AddCommMonoid M] (n : ℕ) (parts : ℕ → List M) :
    ((List.range n).flatMap parts).sum =
      ∑ k ∈ Finset.range n, (parts k).sum := by
  induction n with
  | zero => rfl
  | succ n ih =>
      rw [List.range_succ, List.flatMap_append, List.flatMap_singleton,
        List.sum_append, ih, Finset.sum_range_succ]

/-- What the walkers collect adds up to the sum over the whole range. -/
theorem sum_rows_positions
    {M : Type*} [AddCommMonoid M] {rows width : ℕ} (hrows : 0 < rows)
    (hwidth : 0 < width) (length : ℕ) (f : ℕ → M) :
    ∑ row ∈ Finset.range rows, ∑ column ∈ Finset.range width,
        ((positions length (width * rows) (column + row * width)).map f).sum =
      ∑ k ∈ Finset.range length, f k := by
  have hsum :=
    ((flatMap_rows_positions_perm hrows hwidth length).map f).sum_eq
  rw [List.map_eq_flatMap (l := List.range length)] at hsum
  simpa only [List.map_flatMap, sum_flatMap_range, List.sum_singleton]
    using hsum

end StridePartition
end StockFeed
