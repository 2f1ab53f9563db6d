import StockFeed.ComputeStage
import StockFeed.FloatQuotient

/-!
# Is the reported pair assigned?

`stock_x` and `stock_y` are assigned when a pair has a quotient with an absolute
value below 1, and a search without such a pair prints two variables it has
never written.

Here `float` is binary32.  Prices are converted, added up and multiplied with
one rounding for each operation of the source, in the order of the threads, and
totals may end at infinity or NaN.  Whether the quotient is below 1 is
nevertheless decided before it is taken, by the rounded numerator and the
rounded root.
-/

namespace StockFeed

open NeighbourReduction StrictScan

/-! ## float -/

section Float

instance float32Zero : Zero Float32 := ⟨.ofModel (.ofInt 0)⟩

instance float32One : One Float32 := ⟨.ofModel (.ofInt 1)⟩

instance float32NatCast : NatCast Float32 := ⟨fun n => .ofModel (.ofNat n)⟩

instance float32IntCast : IntCast Float32 := ⟨fun n => .ofModel (.ofInt n)⟩

/-- Prices are rounded before they are added. -/
example : ((16777217 : ℤ) : Float32) + ((-16777216 : ℤ) : Float32) = 0 := by
  decide

def HostFloat.binary32 (cfg : Config) : HostFloat Float32 Float32 where
  quotient sums := sums.fenzi cfg / (sums.radicand cfg).sqrt
  consider i j val search :=
    let val := val.abs
    if val < search.min_cof then ⟨val, some (i, j)⟩ else search

/-- `coefficient`, with `float` as it is. -/
def coefficientFloat (cfg : Config) (junk : Junk Float32)
    (launches : ℕ → ℕ → Launches Float32) (data : StockPriceMap) :
    DeviceM Float32 Unit :=
  coefficientWith (.binary32 cfg) cfg junk launches data

end Float

/-! ## Rounded sums of two windows -/

section Sums

variable {K : Type} [Zero K] [Add K]

/-- Each thread adds up its terms from left to right, the tree adds up the
threads, and the host adds the total to a zero. -/
def roundedSum (launch : Launch K threadNum) (terms : List K) : K :=
  0 + tree (launch.schedule 0).active 3
    (threadTotal terms.length threadNum fun k => terms.getD k 0) 0

/-- What is left in the cells of other threads is not read. -/
theorem total_eq_tree (launch : Launch K threadNum) (terms : List K) :
    0 + ThreadOrders.total launch terms = roundedSum launch terms := by
  rw [ThreadOrders.total, roundedSum,
    tree_congr_below fun _ _ _ => Schedule.lt_of_mem_active]
  intro t ht
  rw [filledCells, if_pos ht]
  rfl

theorem roundedSum_zeros
    (hadd : (0 : K) + 0 = 0) (launch : Launch K threadNum) (n : ℕ) :
    roundedSum launch (List.replicate n 0) = 0 := by
  have hfold : ∀ positions : List ℕ, positions.foldl (fun temp k =>
      temp + (List.replicate n (0 : K)).getD k 0) 0 = 0 := by
    intro positions
    induction positions with
    | nil => rfl
    | cons k rest ih =>
        rw [List.foldl_cons, List.getD_eq_getElem?_getD,
          List.getElem?_getD_replicate_default_eq, hadd, ih]
  have hphase : ∀ order, phase (fun _ => (0 : K)) order = fun _ => 0 := by
    intro order
    induction order with
    | nil => rfl
    | cons t rest ih =>
        have habsorb : absorb (fun _ => (0 : K)) t = fun _ => 0 := by
          rw [absorb, hadd, Function.update_eq_self]
        rw [phase_cons, habsorb, ih]
  have hcells : threadTotal (List.replicate n (0 : K)).length threadNum
      (fun k => (List.replicate n (0 : K)).getD k 0) = fun _ => 0 :=
    funext fun t => hfold _
  rw [roundedSum, hcells, tree, tree, tree, tree, hphase, hphase, hphase]
  exact hadd

variable [Mul K] [IntCast K]

namespace ThreadOrders

/-- The five sums of a pair. -/
def roundedSums (orders : ThreadOrders K) (x y : List Int32) : Sums K where
  dot := roundedSum orders.dot
    (List.zipWith (· * ·) (floatWindow K x) (floatWindow K y))
  sum_x := roundedSum orders.sum_x (floatWindow K x)
  sum_y := roundedSum orders.sum_y (floatWindow K y)
  sum_y_2 := roundedSum orders.sum_y_2 (floatWindow K y)
  sum_x_2 := roundedSum orders.sum_x_2 (floatWindow K x)

theorem accumulated_eq_roundedSums
    (orders : ThreadOrders K) (x y : List Int32) :
    (orders.sums (floatWindow K x) (floatWindow K y)).accumulated =
      orders.roundedSums x y := by
  simp only [Sums.accumulated, sums, roundedSums, total_eq_tree]

end ThreadOrders

end Sums

/-! ## Pairs with a coefficient below one -/

/-- The numerator is in absolute value below the root of the radicand. -/
def BelowRoot (cfg : Config) (sums : Sums Float32) : Prop :=
  (sums.fenzi cfg).abs < (sums.radicand cfg).sqrt

instance decidableBelowRoot (cfg : Config) (sums : Sums Float32) :
    Decidable (BelowRoot cfg sums) :=
  inferInstanceAs (Decidable (_ < _))

theorem quotient_below_one_iff_belowRoot
    (cfg : Config) (sums : Sums Float32) :
    ((HostFloat.binary32 cfg).quotient sums).abs < 1 ↔ BelowRoot cfg sums :=
  FloatQuotient.abs_div_sqrt_lt_one_iff _ _

/-- Absolute values of the pairs, as the search finds them. -/
def pairFloat (cfg : Config) (orders : ℕ → ℕ → ThreadOrders Float32)
    (data : StockPriceMap) (p : ℕ × ℕ) : Option Float32 :=
  some ((HostFloat.binary32 cfg).quotient ((orders p.1 p.2).roundedSums
    (readPrices cfg data p.1) (readPrices cfg data p.2))).abs

/-- What the pair search finds on a map. -/
def floatSearch (cfg : Config) (orders : ℕ → ℕ → ThreadOrders Float32)
    (data : StockPriceMap) : Search Float32 :=
  let found := scan (pairFloat cfg orders data) One.one (pairs cfg.serverStock)
  ⟨found.1, found.2⟩

theorem coefficientFloat_apply
    (cfg : DeviceConfig) {data : StockPriceMap}
    (hmap : FullMap cfg.toConfig data) (junk : Junk Float32)
    (orders : ℕ → ℕ → ThreadOrders Float32) :
    coefficientFloat cfg.toConfig junk
        (fun i j => (orders i j).launches cfg.toConfig) data
        (Device.initial Float32) =
      .error .outOfRange (printedDevice cfg.toConfig data
        (floatSearch cfg.toConfig orders data)) := by
  have hturn : ∀ (search : Search Float32) (p : ℕ × ℕ),
      (HostFloat.binary32 cfg.toConfig).consider p.1 p.2
          ((HostFloat.binary32 cfg.toConfig).quotient
            ((orders p.1 p.2).roundedSums (readPrices cfg.toConfig data p.1)
              (readPrices cfg.toConfig data p.2))) search =
        ⟨(step (pairFloat cfg.toConfig orders data)
            (search.min_cof, search.stocks) p).1,
          (step (pairFloat cfg.toConfig orders data)
            (search.min_cof, search.stocks) p).2⟩ := by
    intro search p
    simp only [HostFloat.binary32, step, pairFloat]
    split_ifs <;> rfl
  have hscan := foldl_eq_scan hturn (pairs cfg.serverStock)
    ⟨One.one, none⟩
  have hcall := coefficientWith_apply (.binary32 cfg.toConfig) cfg hmap junk
    orders
  simp only [deviceWindow, ThreadOrders.accumulated_eq_roundedSums] at hcall
  rw [coefficientFloat, hcall]
  exact congrArg (fun search => EStateM.Result.error Halt.outOfRange
    (printedDevice cfg.toConfig data search)) hscan

theorem floatSearch_stocks_lt
    {cfg : Config} {orders : ℕ → ℕ → ThreadOrders Float32}
    {data : StockPriceMap} {p : ℕ × ℕ}
    (hstocks : (floatSearch cfg orders data).stocks = some p) :
    p.1 < p.2 ∧ p.2 < cfg.serverStock :=
  mem_pairs.mp (scan_kept_mem hstocks)

theorem floatSearch_stocks_iff
    (cfg : Config) (orders : ℕ → ℕ → ThreadOrders Float32)
    (data : StockPriceMap) :
    (∃ p, (floatSearch cfg orders data).stocks = some p) ↔
      ∃ i j, i < j ∧ j < cfg.serverStock ∧ BelowRoot cfg
        ((orders i j).roundedSums (readPrices cfg data i)
          (readPrices cfg data j)) := by
  rw [floatSearch, scan_kept_iff, exists_mem_pairs_iff]
  have hvalue : ∀ i j, (∃ v, pairFloat cfg orders data (i, j) = some v ∧
      v < One.one) ↔ BelowRoot cfg ((orders i j).roundedSums
        (readPrices cfg data i) (readPrices cfg data j)) := by
    intro i j
    rw [← quotient_below_one_iff_belowRoot, pairFloat]
    constructor
    · rintro ⟨v, hv, hlt⟩
      cases hv
      exact hlt
    · intro hlt
      exact ⟨_, rfl, hlt⟩
  simp only [hvalue]

theorem readPrices_windowsAt
    (cfg : Config) (quotes : Quotes) (lc : ℕ) {i : ℕ}
    (hi : i < cfg.serverStock) :
    readPrices cfg (windowsAt cfg quotes lc) i =
      (List.range cfg.priceListSize).map fun k =>
        (quotes (lc + 1 - cfg.priceListSize + k) i).closePrice := by
  rw [readPrices, find?_windowsAt cfg quotes lc hi, Option.getD_some]
  apply List.take_of_length_le
  rw [List.length_map, List.length_range]

/-- Close prices of three stocks in four loops. -/
def trioQuotes : Quotes := fun lc i =>
  ⟨0, (([[9, 7, 8, 6], [5, 8, 6, 9], [7, 7, 9, 5]].getD i []).getD lc 0), 0, 0⟩

theorem not_belowRoot_zeros (orders : ThreadOrders Float32) (n : ℕ) :
    ¬ BelowRoot Config.shipped (orders.roundedSums (List.replicate n 0)
      (List.replicate n 0)) := by
  have hwindow : floatWindow Float32 (List.replicate n 0) =
      List.replicate n Zero.zero := by
    rw [floatWindow, List.map_replicate]
    rfl
  have hproduct : (Zero.zero : Float32) * Zero.zero = Zero.zero := by decide
  have hsum : ∀ launch : Launch Float32 threadNum,
      roundedSum launch (List.replicate n Zero.zero) = Zero.zero :=
    fun launch => roundedSum_zeros (by decide) launch n
  rw [ThreadOrders.roundedSums, hwindow, List.zipWith_replicate, min_self,
    hproduct]
  simp only [hsum]
  decide

end StockFeed
