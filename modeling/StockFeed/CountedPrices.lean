import StockFeed.ComputeStage

/-!
# Coefficients below one

A launch counts each price as often as its thread is counted by the reduction,
which depends on the thread order and not on the prices.  In exact arithmetic
the quotient of a pair is below 1 exactly if, of the integer sums counted that
way, the square of the numerator is below the radicand, and the search assigns
a pair exactly if it finds one like that.
-/

namespace StockFeed

open StateAction NeighbourReduction StrictScan

/-! ## Prices counted by their threads -/

section Counted

variable {K : Type}

/-- The prices, each counted as often as the reduction counts its thread. -/
def countedSum (launch : Launch K threadNum) (values : List ℤ) : ℤ :=
  ∑ k ∈ Finset.range values.length,
    share (launch.schedule 0).active 3 (k % threadNum) * values.getD k 0

namespace ThreadOrders

/-- The five sums of a pair, in integers. -/
def countedSums (orders : ThreadOrders K) (x y : List Int32) : Sums ℤ where
  dot := countedSum orders.dot
    (List.zipWith (fun a b => a.toInt * b.toInt) x y)
  sum_x := countedSum orders.sum_x (x.map Int32.toInt)
  sum_y := countedSum orders.sum_y (y.map Int32.toInt)
  sum_y_2 := countedSum orders.sum_y_2 (y.map Int32.toInt)
  sum_x_2 := countedSum orders.sum_x_2 (x.map Int32.toInt)

variable [Field K]

theorem total_eq_countedSum
    (launch : Launch K threadNum) (values : List ℤ) :
    total launch (values.map (Int.cast : ℤ → K)) =
      (countedSum launch values : K) := by
  let terms := values.map (Int.cast : ℤ → K)
  have hcells : ∀ t ∈ Finset.range (2 ^ 3),
      share (launch.schedule 0).active 3 t •
        filledCells terms.length 3 (fun k => terms.getD k 0)
          (launch.shared 0) t =
      ∑ k ∈ (Finset.range terms.length).filter (· % threadNum = t),
        (share (launch.schedule 0).active 3 (k % threadNum) : K) *
          terms.getD k 0 := by
    intro t ht
    rw [filledCells_eq_threadSum (Finset.mem_range.mp ht), threadSum,
      Finset.smul_sum]
    apply Finset.sum_congr rfl
    intro k hk
    have hmod : k % threadNum = t := (Finset.mem_filter.mp hk).2
    rw [hmod, nsmul_eq_mul]
  have hthreads : ∀ k ∈ Finset.range terms.length,
      k % threadNum ∈ Finset.range (2 ^ 3) :=
    fun k _ => Finset.mem_range.mpr (Nat.mod_lt k (by decide))
  have hlength : terms.length = values.length := List.length_map Int.cast
  rw [total, tree_eq_sum_share fun _ _ _ => Schedule.lt_of_mem_active,
    Finset.sum_congr rfl hcells, Finset.sum_fiberwise_of_maps_to hthreads,
    countedSum, Int.cast_sum, hlength]
  apply Finset.sum_congr rfl
  intro k _
  rw [Int.cast_mul, Int.cast_natCast]
  congr 1
  have hvalue : terms.getD k ((0 : ℤ) : K) = ((values.getD k 0 : ℤ) : K) :=
    List.getD_map values 0 Int.cast
  rw [Int.cast_zero] at hvalue
  exact hvalue

theorem sums_floatWindow
    (orders : ThreadOrders K) (x y : List Int32) :
    orders.sums (floatWindow K x) (floatWindow K y) =
      ⟨(orders.countedSums x y).dot, (orders.countedSums x y).sum_x,
        (orders.countedSums x y).sum_y, (orders.countedSums x y).sum_y_2,
        (orders.countedSums x y).sum_x_2⟩ := by
  have hwindow : ∀ window : List Int32, floatWindow K window =
      (window.map Int32.toInt).map (Int.cast : ℤ → K) := by
    intro window
    rw [floatWindow, List.map_map]
    rfl
  have hproduct : List.zipWith (· * ·) (floatWindow K x) (floatWindow K y) =
      (List.zipWith (fun a b => a.toInt * b.toInt) x y).map
        (Int.cast : ℤ → K) := by
    rw [floatWindow, floatWindow, List.map_zipWith, List.zipWith_map]
    simp only [Int.cast_mul]
  rw [sums, hproduct, hwindow, hwindow]
  simp only [total_eq_countedSum, countedSums]

end ThreadOrders

end Counted

/-! ## Pairs below one -/

section Below

/-- The square of the numerator is below the radicand. -/
def BelowOne (cfg : Config) (sums : Sums ℤ) : Prop :=
  (sums.dot - sums.sum_x * sums.sum_y) ^ 2 <
    (cfg.priceListSize * sums.sum_x_2 - sums.sum_x ^ 2) *
      (cfg.priceListSize * sums.sum_y_2 - sums.sum_y ^ 2)

variable {K : Type} [Field K] [LinearOrder K] [IsStrictOrderedRing K]

theorem quotient_below_one_iff
    (cfg : Config) (sqrt : SquareRoot K) (sums : Sums K) :
    (∃ v, (sums.quotient cfg sqrt).map abs = some v ∧ v < 1) ↔
      sums.fenzi cfg ^ 2 < sums.radicand cfg := by
  rcases lt_or_ge (sums.radicand cfg) 0 with hneg | hnonneg
  · rw [Sums.quotient, sqrt.root_neg _ hneg]
    constructor
    · rintro ⟨v, hv, _⟩
      exact absurd hv.symm (Option.some_ne_none v)
    · intro hlt
      exact absurd (hlt.trans hneg) (not_lt.mpr (sq_nonneg _))
  · obtain ⟨fenmu, hroot, hfenmu, hsquare⟩ :=
      sqrt.root_nonneg _ hnonneg
    rw [Sums.quotient, hroot, ← hsquare]
    simp only
    rcases hfenmu.eq_or_lt with hzero | hpos
    · rw [if_pos hzero.symm, ← hzero, mul_zero]
      constructor
      · rintro ⟨v, hv, _⟩
        exact absurd hv.symm (Option.some_ne_none v)
      · intro hlt
        exact absurd hlt (not_lt.mpr (sq_nonneg _))
    · rw [if_neg hpos.ne', Option.map_some, ← sq, sq_lt_sq, abs_of_pos hpos]
      have habs : |sums.fenzi cfg / fenmu| < 1 ↔ |sums.fenzi cfg| < fenmu := by
        rw [abs_div, abs_of_pos hpos, div_lt_one hpos]
      rw [← habs]
      simp

theorem fenzi_lt_radicand_iff
    (cfg : Config) (orders : ThreadOrders K) (x y : List Int32) :
    (orders.sums (floatWindow K x) (floatWindow K y)).fenzi cfg ^ 2 <
        (orders.sums (floatWindow K x) (floatWindow K y)).radicand cfg ↔
      BelowOne cfg (orders.countedSums x y) := by
  have hpos : (0 : K) < cfg.priceListSize :=
    Nat.cast_pos.mpr cfg.priceListSize_pos
  have hsquare : (0 : K) < (cfg.priceListSize : K) ^ 2 := pow_pos hpos 2
  rw [ThreadOrders.sums_floatWindow]
  generalize orders.countedSums x y = sums
  obtain ⟨dot, sum_x, sum_y, sum_y_2, sum_x_2⟩ := sums
  have hradicand : ((sum_x_2 : K) - sum_x * sum_x / cfg.priceListSize) *
      (sum_y_2 - sum_y * sum_y / cfg.priceListSize) =
        (((cfg.priceListSize * sum_x_2 - sum_x ^ 2) *
          (cfg.priceListSize * sum_y_2 - sum_y ^ 2) : ℤ) : K) /
            (cfg.priceListSize : K) ^ 2 := by
    push_cast
    field_simp
  have hfenzi : (((dot : K) - sum_x * sum_y) / cfg.priceListSize) ^ 2 =
      (((dot - sum_x * sum_y) ^ 2 : ℤ) : K) / (cfg.priceListSize : K) ^ 2 := by
    push_cast
    rw [div_pow]
  rw [Sums.fenzi, Sums.radicand]
  simp only
  rw [hradicand, hfenzi, div_lt_div_iff_of_pos_right hsquare, Int.cast_lt,
    BelowOne]

theorem foundSearch_stocks_iff
    (cfg : Config) (sqrt : SquareRoot K) (orders : ℕ → ℕ → ThreadOrders K)
    (data : StockPriceMap) :
    (∃ p, (foundSearch cfg sqrt orders data).stocks = some p) ↔
      ∃ i j, i < j ∧ j < cfg.serverStock ∧ BelowOne cfg
        ((orders i j).countedSums (readPrices cfg data i)
          (readPrices cfg data j)) := by
  have hvalue : ∀ i j, (∃ v, pairValue cfg sqrt orders
      (deviceWindow K cfg data) (i, j) = some v ∧ v < 1) ↔
        BelowOne cfg ((orders i j).countedSums (readPrices cfg data i)
          (readPrices cfg data j)) := by
    intro i j
    rw [← fenzi_lt_radicand_iff cfg (orders i j)]
    exact quotient_below_one_iff cfg sqrt _
  rw [foundSearch]
  simp only
  rw [scan_kept_iff, exists_mem_pairs_iff]
  constructor
  · rintro ⟨i, j, hij, hj, hbelow⟩
    exact ⟨i, j, hij, hj, (hvalue i j).mp hbelow⟩
  · rintro ⟨i, j, hij, hj, hbelow⟩
    exact ⟨i, j, hij, hj, (hvalue i j).mpr hbelow⟩

end Below

end StockFeed
