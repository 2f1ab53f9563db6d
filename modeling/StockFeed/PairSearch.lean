import StockFeed.CoefficientFormula
import StockFeed.StrictScan
import Mathlib.Analysis.Real.Sqrt

/-!
# The pair search

The double loop of `coefficient` evaluates every pair `i < j` once, in
lexicographic order, and each evaluation costs one allocation which is freed
again.  Its result is a strict scan over the absolute values, so it is the
first pair with the least of them, provided that is below the initial 1.

The value of a pair depends on the orders in which the threads of its five
launches run.  With the orders of the two arrays exchanged it is symmetric in
exact arithmetic, although the kernels do not compute the totals they are
meant to.
-/

namespace StockFeed

open StateAction NeighbourReduction StrictScan

/-! ## Thread orders of one call -/

/-- What the five launches of a call leave open. -/
structure ThreadOrders (K : Type) where
  dot : Launch K threadNum
  sum_x : Launch K threadNum
  sum_y : Launch K threadNum
  sum_y_2 : Launch K threadNum
  sum_x_2 : Launch K threadNum

namespace ThreadOrders

variable {K : Type}

/-- Each array is reduced in the same order when the arguments are exchanged. -/
def swap (orders : ThreadOrders K) : ThreadOrders K where
  dot := orders.dot
  sum_x := orders.sum_y
  sum_y := orders.sum_x
  sum_y_2 := orders.sum_x_2
  sum_x_2 := orders.sum_y_2

section Totals

variable [Zero K] [Add K]

/-- What a launch with `THREAD_NUM` threads leaves in `output[0]`. -/
def total (launch : Launch K threadNum) (terms : List K) : K :=
  tree (launch.schedule 0).active 3
    (filledCells terms.length 3 (fun k => terms.getD k 0) (launch.shared 0)) 0

theorem reduceGrid_total
    {terms : List K} (hint : terms.length + threadsPerBlock < 2 ^ 31)
    {term : Int32 → Checked K}
    (hterm : TermsAt terms.length term fun k => terms.getD k 0)
    (launch : Launch K threadNum) (x : K) :
    reduceGrid terms.length blockNum threadNum term launch [x] =
      .ok [total launch terms] := by
  have hblock : 2 ^ 3 ≤ threadsPerBlock := by decide
  exact reduceGrid_one_eq (reduceBlock_eq hblock hint hterm _ _) x

variable [Mul K]

def launches (cfg : Config) (orders : ThreadOrders K) : Launches K where
  dot := .scheduled cfg orders.dot
  sum_x := .scheduled cfg orders.sum_x
  sum_y := .scheduled cfg orders.sum_y
  sum_y_2 := .scheduled cfg orders.sum_y_2
  sum_x_2 := .scheduled cfg orders.sum_x_2

def sums (orders : ThreadOrders K) (a b : List K) : Sums K where
  dot := total orders.dot (List.zipWith (· * ·) a b)
  sum_x := total orders.sum_x a
  sum_y := total orders.sum_y b
  sum_y_2 := total orders.sum_y_2 b
  sum_x_2 := total orders.sum_x_2 a

theorem computes
    (cfg : DeviceConfig) (orders : ThreadOrders K) {a b : List K}
    (ha : a.length = cfg.priceListSize) (hb : b.length = cfg.priceListSize) :
    (orders.launches cfg.toConfig).Computes a b (orders.sums a b) := by
  have hfits := cfg.arrayLength_lt
  have hsum : ∀ {array : List K}, array.length = cfg.priceListSize →
      ∀ (launch : Launch K threadNum) (x : K),
        StockFeed.sum cfg.priceListSize blockNum threadNum launch array [x] =
          .ok [total launch array] := by
    intro array hlength launch x
    rw [StockFeed.sum, ← hlength]
    exact reduceGrid_total (by omega) (termsAt_readSigned (by omega)) launch x
  have hproduct : (List.zipWith (· * ·) a b).length = cfg.priceListSize := by
    rw [List.length_zipWith, ha, hb, min_self]
  refine ⟨?_, hsum ha orders.sum_x, hsum hb orders.sum_y,
    hsum hb orders.sum_y_2, hsum ha orders.sum_x_2⟩
  intro x
  have hgrid := reduceGrid_total (by omega)
    (termsAt_product (ha.trans hb.symm) (by omega)) orders.dot x
  rw [hproduct] at hgrid
  exact hgrid

end Totals

variable [Field K] [LinearOrder K]

/-- `fabs(coefficient_single(a, b))`. -/
def value (cfg : Config) (sqrt : SquareRoot K) (orders : ThreadOrders K)
    (a b : List K) : Option K :=
  ((orders.sums a b).quotient cfg sqrt).map abs

theorem value_swap
    (cfg : Config) (sqrt : SquareRoot K) (orders : ThreadOrders K)
    (a b : List K) :
    orders.swap.value cfg sqrt b a = orders.value cfg sqrt a b := by
  have hdot : List.zipWith (· * ·) b a = List.zipWith (· * ·) a b :=
    List.zipWith_comm_of_comm fun x y => mul_comm x y
  have hfenzi : (orders.swap.sums b a).fenzi cfg =
      (orders.sums a b).fenzi cfg := by
    simp only [Sums.fenzi, sums, swap, hdot]
    rw [mul_comm]
  have hradicand : (orders.swap.sums b a).radicand cfg =
      (orders.sums a b).radicand cfg := by
    simp only [Sums.radicand, sums, swap]
    exact mul_comm _ _
  rw [value, value, Sums.quotient, Sums.quotient, hfenzi, hradicand]

end ThreadOrders

/-! ## The device during the search -/

section Search

variable {K : Type}

/-- Operations of `k` scratch buffers, the first of them with number `base`. -/
def scratchOps (base k : ℕ) : List DeviceOp :=
  (List.range k).flatMap fun t => [.cudaMalloc (base + t), .cudaFree (base + t)]

def Device.afterPairs (device : Device K) (k : ℕ) : Device K :=
  { device with
    memory := device.memory ++ List.replicate k none
    ops := device.ops ++ scratchOps device.memory.length k }

@[simp] theorem Device.afterPairs_zero (device : Device K) :
    device.afterPairs 0 = device := by
  simp [Device.afterPairs, scratchOps]

theorem Device.afterPairs_succ (device : Device K) (k : ℕ) :
    device.afterPairs (k + 1) = { device.afterPairs k with
      memory := (device.afterPairs k).memory ++ [none]
      ops := (device.afterPairs k).ops ++
        [.cudaMalloc (device.afterPairs k).memory.length,
          .cudaFree (device.afterPairs k).memory.length] } := by
  simp [Device.afterPairs, scratchOps, List.range_succ, List.replicate_succ']

/-- `array` points to the windows. -/
def Device.Holds (device : Device K) (array : List ℕ) (loop : ℕ)
    (windows : ℕ → List K) : Prop :=
  ∀ i < loop, ∃ p, array[i]? = some p ∧
    device.memory[p]? = some (some (windows i))

theorem Device.Holds.afterPairs
    {device : Device K} {array : List ℕ} {loop : ℕ} {windows : ℕ → List K}
    (hholds : device.Holds array loop windows) (k : ℕ) :
    (device.afterPairs k).Holds array loop windows := by
  intro i hi
  obtain ⟨p, hp, hlive⟩ := hholds i hi
  refine ⟨p, hp, ?_⟩
  rw [Device.afterPairs,
    List.getElem?_append_left (List.getElem?_eq_some_iff.mp hlive).1]
  exact hlive

/-- The pairs in the order in which the double loop visits them. -/
def pairs (loop : ℕ) : List (ℕ × ℕ) :=
  (List.range loop).flatMap fun i =>
    (List.range' (i + 1) (loop - (i + 1))).map fun j => (i, j)

theorem mem_pairs {loop : ℕ} {p : ℕ × ℕ} :
    p ∈ pairs loop ↔ p.1 < p.2 ∧ p.2 < loop := by
  obtain ⟨i, j⟩ := p
  simp only [pairs, List.mem_flatMap, List.mem_range, List.mem_map,
    List.mem_range'_1, Prod.mk.injEq]
  constructor
  · rintro ⟨i', hi', j', hj', rfl, rfl⟩
    omega
  · rintro ⟨hij, hj⟩
    exact ⟨i, by omega, j, by omega, rfl, rfl⟩

theorem pairs_sorted (loop : ℕ) :
    (pairs loop).Pairwise fun p q => p.1 < q.1 ∨ p.1 = q.1 ∧ p.2 < q.2 := by
  rw [pairs, List.pairwise_flatMap]
  constructor
  · intro i _
    rw [List.pairwise_map]
    exact List.Pairwise.imp (fun hlt => Or.inr ⟨rfl, hlt⟩)
      List.pairwise_lt_range'
  · refine List.pairwise_lt_range.imp ?_
    intro i i' hlt p hp q hq
    obtain ⟨j, _, rfl⟩ := List.mem_map.mp hp
    obtain ⟨j', _, rfl⟩ := List.mem_map.mp hq
    exact Or.inl hlt

theorem exists_mem_pairs_iff {loop : ℕ} {P : ℕ × ℕ → Prop} :
    (∃ p ∈ pairs loop, P p) ↔ ∃ i j, i < j ∧ j < loop ∧ P (i, j) := by
  constructor
  · rintro ⟨⟨i, j⟩, hp, hP⟩
    exact ⟨i, j, (mem_pairs.mp hp).1, (mem_pairs.mp hp).2, hP⟩
  · rintro ⟨i, j, hij, hj, hP⟩
    exact ⟨(i, j), mem_pairs.mpr ⟨hij, hj⟩, hP⟩

/-- The pairs `i < j` have all the values of a symmetric function. -/
theorem exists_lt_iff_of_symmetric
    {c : ℕ → ℕ → Option K} (hsymmetric : ∀ i j, c j i = c i j) {loop : ℕ}
    {v : K} :
    (∃ i j, i < j ∧ j < loop ∧ c i j = some v) ↔
      ∃ i j, i ≠ j ∧ i < loop ∧ j < loop ∧ c i j = some v := by
  constructor
  · rintro ⟨i, j, hij, hj, hv⟩
    exact ⟨i, j, hij.ne, hij.trans hj, hj, hv⟩
  · rintro ⟨i, j, hij, hi, hj, hv⟩
    rcases Nat.lt_or_gt_of_ne hij with hlt | hgt
    · exact ⟨i, j, hlt, hj, hv⟩
    · exact ⟨j, i, hgt, hi, (hsymmetric i j).trans hv⟩

/-- A search whose turns are the steps of a scan is one. -/
theorem foldl_eq_scan
    [LT K] [DecidableLT K] {value : ℕ × ℕ → Option K}
    {turn : Search K → ℕ × ℕ → Search K}
    (hturn : ∀ search p, turn search p =
      ⟨(step value (search.min_cof, search.stocks) p).1,
        (step value (search.min_cof, search.stocks) p).2⟩)
    (items : List (ℕ × ℕ)) (search : Search K) :
    items.foldl turn search =
      ⟨(items.foldl (step value) (search.min_cof, search.stocks)).1,
        (items.foldl (step value) (search.min_cof, search.stocks)).2⟩ := by
  induction items generalizing search with
  | nil => rfl
  | cons p rest ih => rw [List.foldl_cons, List.foldl_cons, ih, hturn]

section Values

variable [Zero K] [One K] [Add K] [Mul K]

/-- The double loop considers the pairs one after the other. -/
theorem pairSearchWith_apply
    {V : Type} (host : HostFloat K V) {cfg : DeviceConfig} (junk : Junk K)
    (orders : ℕ → ℕ → ThreadOrders K) {loop : ℕ} {array : List ℕ}
    {windows : ℕ → List K} {device : Device K}
    (hholds : device.Holds array loop windows)
    (hlength : ∀ i < loop, (windows i).length = cfg.priceListSize) :
    pairSearchWith host junk (fun i j => (orders i j).launches cfg.toConfig)
        loop array device =
      .ok ((pairs loop).foldl (fun search p => host.consider p.1 p.2
          (host.quotient ((orders p.1 p.2).sums (windows p.1)
            (windows p.2)).accumulated) search) ⟨1, none⟩)
        (device.afterPairs (pairs loop).length) := by
  let body : Search K → ℕ × ℕ → DeviceM K (Search K) := fun search p => do
    let dev_a ← liftChecked (readAt array p.1)
    let dev_b ← liftChecked (readAt array p.2)
    let val ← coefficientSingleWith host junk
      ((orders p.1 p.2).launches cfg.toConfig) dev_a dev_b
    return host.consider p.1 p.2 val search
  have hflat : pairSearchWith host junk
      (fun i j => (orders i j).launches cfg.toConfig) loop array =
        (pairs loop).foldlM body ⟨1, none⟩ := by
    rw [pairs, foldlM_flatMap, pairSearchWith]
    simp only [List.foldlM_map]
    rfl
  have hstep : ∀ p ∈ pairs loop, ∀ search k,
      body search p (device.afterPairs k) =
        .ok (host.consider p.1 p.2 (host.quotient ((orders p.1 p.2).sums
            (windows p.1) (windows p.2)).accumulated) search)
          (device.afterPairs (k + 1)) := by
    intro p hp search k
    rw [mem_pairs] at hp
    have hi : p.1 < loop := hp.1.trans hp.2
    obtain ⟨dev_a, hdev_a, ha⟩ := hholds.afterPairs k p.1 hi
    obtain ⟨dev_b, hdev_b, hb⟩ := hholds.afterPairs k p.2 hp.2
    have hread_a : readAt array p.1 = .ok dev_a := by rw [readAt, hdev_a]
    have hread_b : readAt array p.2 = .ok dev_b := by rw [readAt, hdev_b]
    have hsingle := coefficientSingleWith_apply host junk
      ((orders p.1 p.2).computes cfg (hlength p.1 hi) (hlength p.2 hp.2)) ha hb
    rw [← Device.afterPairs_succ] at hsingle
    simp only [body]
    rw [bind_apply_of_ok (liftChecked_apply hread_a _),
      bind_apply_of_ok (liftChecked_apply hread_b _),
      bind_apply_of_ok hsingle]
    rfl
  have hrun := foldlM_apply_of_steps hstep ⟨1, none⟩ 0
  rw [Device.afterPairs_zero, Nat.zero_add] at hrun
  rw [hflat, hrun]

end Values

variable [Field K] [LinearOrder K]

theorem consider_eq_step
    {value : ℕ × ℕ → Option K} {i j : ℕ} {val : Option K}
    (hvalue : value (i, j) = val.map abs) (search : Search K) :
    search.consider i j val =
      ⟨(step value (search.min_cof, search.stocks) (i, j)).1,
        (step value (search.min_cof, search.stocks) (i, j)).2⟩ := by
  rw [step, hvalue]
  cases val with
  | none => rfl
  | some v =>
      rw [Search.consider, Option.map_some]
      simp only
      split_ifs <;> rfl

/-- Absolute values of the pairs, as the search finds them. -/
def pairValue (cfg : Config) (sqrt : SquareRoot K)
    (orders : ℕ → ℕ → ThreadOrders K) (windows : ℕ → List K) (p : ℕ × ℕ) :
    Option K :=
  (orders p.1 p.2).value cfg sqrt (windows p.1) (windows p.2)

/-- The double loop is a strict scan over the pairs. -/
theorem pairSearch_apply
    {cfg : DeviceConfig} {sqrt : SquareRoot K} {junk : Junk K}
    {orders : ℕ → ℕ → ThreadOrders K} {loop : ℕ} {array : List ℕ}
    {windows : ℕ → List K} {device : Device K}
    (hholds : device.Holds array loop windows)
    (hlength : ∀ i < loop, (windows i).length = cfg.priceListSize) :
    pairSearch cfg.toConfig sqrt junk
        (fun i j => (orders i j).launches cfg.toConfig) loop array device =
      .ok ⟨(scan (pairValue cfg.toConfig sqrt orders windows) 1 (pairs loop)).1,
          (scan (pairValue cfg.toConfig sqrt orders windows) 1 (pairs loop)).2⟩
        (device.afterPairs (pairs loop).length) := by
  have hscan := foldl_eq_scan (fun search p => consider_eq_step
    (rfl : pairValue cfg.toConfig sqrt orders windows p = _) search)
    (pairs loop) ⟨1, none⟩
  have hsearch := pairSearchWith_apply (.exact cfg.toConfig sqrt) junk orders
    hholds hlength
  simp only [Sums.accumulated_eq] at hsearch
  rw [pairSearch, hsearch]
  exact congrArg (fun search =>
    EStateM.Result.ok search (device.afterPairs (pairs loop).length)) hscan

/-- In exact arithmetic the search ends with the least of 1 and all values of
pairs `i < j`, and below 1 it has found the lexicographically first pair which attains it.  If
each array is reduced in the same thread order whichever argument it is, the
values are symmetric and the minimum is one over all ordered pairs. -/
theorem pairSearch_first_minimum
    (cfg : DeviceConfig) (sqrt : SquareRoot K) (junk : Junk K)
    (orders : ℕ → ℕ → ThreadOrders K) (loop : ℕ) {array : List ℕ}
    {windows : ℕ → List K} {device : Device K}
    (hholds : device.Holds array loop windows)
    (hlength : ∀ i < loop, (windows i).length = cfg.priceListSize) :
    ∃ (c : ℕ → ℕ → Option K) (search : Search K) (device' : Device K),
      (∀ i < loop, ∀ j < loop, ∃ dev_a dev_b val device'',
        array[i]? = some dev_a ∧ array[j]? = some dev_b ∧
        coefficientSingle cfg.toConfig sqrt junk
          ((orders i j).launches cfg.toConfig) dev_a dev_b device =
            .ok val device'' ∧
        c i j = val.map abs) ∧
      pairSearch cfg.toConfig sqrt junk
        (fun i j => (orders i j).launches cfg.toConfig) loop array device =
          .ok search device' ∧
      IsLeast ({1} ∪ {v | ∃ i j, i < j ∧ j < loop ∧ c i j = some v})
        search.min_cof ∧
      (search.min_cof < 1 → ∃ x y, search.stocks = some (x, y) ∧
        x < y ∧ y < loop ∧ c x y = some search.min_cof ∧
        ∀ i j, i < j → j < loop → c i j = some search.min_cof →
          x < i ∨ x = i ∧ y ≤ j) ∧
      ((∀ i j, orders j i = (orders i j).swap) →
        (∀ i j, c j i = c i j) ∧
        IsLeast ({1} ∪ {v | ∃ i j, i ≠ j ∧ i < loop ∧ j < loop ∧
          c i j = some v}) search.min_cof) := by
  let c : ℕ → ℕ → Option K := fun i j =>
    pairValue cfg.toConfig sqrt orders windows (i, j)
  have hscanned := scanned_scan (pairValue cfg.toConfig sqrt orders windows) 1
    (pairs loop)
  have hleast := hscanned.isLeast
  simp only [exists_mem_pairs_iff] at hleast
  refine ⟨c, _, _, ?_, pairSearch_apply hholds hlength, hleast, ?_, ?_⟩
  · intro i hi j hj
    obtain ⟨dev_a, hdev_a, ha⟩ := hholds i hi
    obtain ⟨dev_b, hdev_b, hb⟩ := hholds j hj
    exact ⟨dev_a, dev_b, _, _, hdev_a, hdev_b,
      coefficientSingle_apply _ _ _
        ((orders i j).computes cfg (hlength i hi) (hlength j hj)) ha hb, rfl⟩
  · intro hlt
    obtain ⟨⟨x, y⟩, hp, hstocks, hvalue, hfirst⟩ :=
      hscanned.first hlt (pairs_sorted loop)
    rw [mem_pairs] at hp
    refine ⟨x, y, hstocks, hp.1, hp.2, hvalue, ?_⟩
    intro i j hij hj hsame
    rcases hfirst (i, j) (mem_pairs.mpr ⟨hij, hj⟩) hsame with heq | hafter
    · rw [Prod.mk.injEq] at heq
      exact Or.inr ⟨heq.1.symm, heq.2.ge⟩
    · rcases hafter with hrow | ⟨hrow, hcolumn⟩
      · exact Or.inl hrow
      · exact Or.inr ⟨hrow, hcolumn.le⟩
  · intro hsame
    have hsymmetric : ∀ i j, c j i = c i j := by
      intro i j
      simp only [c, pairValue]
      rw [hsame i j]
      exact ThreadOrders.value_swap cfg.toConfig sqrt (orders i j) (windows i)
        (windows j)
    refine ⟨hsymmetric, ?_⟩
    simp only [← exists_lt_iff_of_symmetric hsymmetric]
    exact hleast

end Search

/-! ## Real numbers -/

noncomputable def SquareRoot.real : SquareRoot ℝ where
  root x := if x < 0 then none else some (Real.sqrt x)
  root_neg _ hx := if_pos hx
  root_nonneg x hx := ⟨Real.sqrt x, if_neg (not_lt.mpr hx), Real.sqrt_nonneg x,
    Real.mul_self_sqrt hx⟩

/-- Threads in the order of their numbers, shared memory cleared. -/
def ThreadOrders.inOrder (K : Type) [Zero K] : ThreadOrders K :=
  let launch : Launch K threadNum :=
    ⟨fun _ => ⟨fun _ => List.range threadNum, fun _ => List.Perm.refl _⟩,
      fun _ => ⟨List.replicate threadsPerBlock 0, List.length_replicate⟩⟩
  ⟨launch, launch, launch, launch, launch⟩

def DeviceConfig.pair : DeviceConfig where
  toConfig := Config.pair
  arrayLength_lt := by decide

def DeviceConfig.trio : DeviceConfig where
  toConfig := Config.trio
  arrayLength_lt := by decide

/-- Three windows with four prices each. -/
theorem pairSearch_first_minimum_trio :
    let windows : ℕ → List ℝ := fun i =>
      if i = 0 then [9, 7, 8, 6] else if i = 1 then [5, 8, 6, 9] else [7, 7, 9, 5]
    let device : Device ℝ :=
      ⟨[some (windows 0), some (windows 1), some (windows 2)], [], none⟩
    let orders : ℕ → ℕ → ThreadOrders ℝ := fun _ _ => .inOrder ℝ
    ∃ (c : ℕ → ℕ → Option ℝ) (search : Search ℝ) (device' : Device ℝ),
      pairSearch Config.trio .real ⟨0, 0⟩
        (fun i j => (orders i j).launches Config.trio) 3 [0, 1, 2] device =
          .ok search device' ∧
      c 2 0 = c 0 2 ∧
      IsLeast ({1} ∪ {v | ∃ i j, i ≠ j ∧ i < 3 ∧ j < 3 ∧ c i j = some v})
        search.min_cof := by
  intro windows device orders
  have hholds : device.Holds [0, 1, 2] 3 windows := by
    intro i hi
    interval_cases i
    · exact ⟨0, rfl, rfl⟩
    · exact ⟨1, rfl, rfl⟩
    · exact ⟨2, rfl, rfl⟩
  have hlength : ∀ i < 3, (windows i).length =
      DeviceConfig.trio.priceListSize := by
    intro i _
    simp only [windows]
    split_ifs <;> rfl
  obtain ⟨c, search, device', _, hrun, _, _, hsame⟩ :=
    pairSearch_first_minimum DeviceConfig.trio .real ⟨0, 0⟩ orders 3 hholds
      hlength
  have hordered := hsame fun _ _ => rfl
  exact ⟨c, search, device', hrun, hordered.1 0 2, hordered.2⟩

end StockFeed
